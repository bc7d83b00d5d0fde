import TccRiscv64.Alloc.TinyAlloc

set_option autoImplicit false

/-! # The invariant of the allocator

Pools lie apart from each other, the blocks of a pool between its start and its free end, each
after a header with its size; what `malloc` has given out lies outside all pools. -/

namespace TccRiscv64.Alloc

open TccRiscv64.Isa

theorem adjSize_spec (size : Nat) (h : size < 2 ^ 16) :
    size ≤ adjSize size ∧ adjSize size ≤ (size + 3) / 4 * 4 := by
  unfold adjSize
  omega

theorem Kind.limit_spec (kind : Kind) : 0 < kind.limit ∧ kind.limit ≤ 1024 ∧ 4 ∣ kind.limit := by
  cases kind <;> decide

/-- A block that fits in a pool fits there with its header. -/
theorem Kind.adjSize_le (kind : Kind) {size : Nat} (h : size ≤ kind.limit) :
    size ≤ adjSize size ∧ adjSize size ≤ kind.limit := by
  obtain ⟨-, hlimit, k, hk⟩ := kind.limit_spec
  have := adjSize_spec size (by omega)
  omega

/-! ## Pools -/

/-- A pool of a chain. Its size is that of the first one times a power of two, or, from the
fourteenth one on, less. -/
structure PoolOk (kind : Kind) (al : TinyAlloc) : Prop where
  limit : al.limit = kind.limit
  size_dvd : 2 ^ 18 ∣ al.size
  size_lt : al.size < 2 ^ 32
  buffer_pos : 0 < al.buffer
  le_p : al.buffer ≤ al.p
  p_lt : al.p = al.buffer ∨ al.p < al.buffer + al.size

theorem PoolOk.p_le {kind : Kind} {al : TinyAlloc} (h : PoolOk kind al) :
    al.p ≤ al.buffer + al.size := by
  have := h.p_lt
  omega

/-- Two pools have no byte in common. -/
def RangeApart (al bl : TinyAlloc) : Prop :=
  al.buffer + al.size ≤ bl.buffer ∨ bl.buffer + bl.size ≤ al.buffer

instance : Std.Symm RangeApart := ⟨fun _ _ => Or.symm⟩

structure PoolsOk (kind : Kind) (pools : List TinyAlloc) : Prop where
  ne_nil : pools ≠ []
  ok : ∀ al ∈ pools, PoolOk kind al
  apart : pools.Pairwise RangeApart

section Pools

variable {kind : Kind} {pools pre post : List TinyAlloc} {al al' bl : TinyAlloc}

theorem PoolsOk.eq_or_apart (h : PoolsOk kind pools) (ha : al ∈ pools) (hb : bl ∈ pools) :
    al = bl ∨ RangeApart al bl := by
  by_cases hne : al = bl
  · exact Or.inl hne
  · exact Or.inr (h.apart.forall ha hb hne)

/-- No other pool has an address that a pool has. -/
theorem PoolsOk.eq_of_owns (h : PoolsOk kind pools) (ha : al ∈ pools) (hb : bl ∈ pools) {p : Nat}
    (hap : al.Owns p) (hbp : bl.Owns p) : al = bl := by
  unfold TinyAlloc.Owns at hap hbp
  rcases h.eq_or_apart ha hb with heq | h1 | h1
  · exact heq
  · omega
  · omega

theorem mem_split : al ∈ pre ++ al :: post := List.mem_append_right _ List.mem_cons_self

/-- What holds of all pools holds of them with one changed. -/
theorem forall_replace {P : TinyAlloc → Prop} (h : ∀ x ∈ pre ++ al :: post, P x) (h' : P al') :
    ∀ x ∈ pre ++ al' :: post, P x := by
  intro x hx
  rcases List.mem_append.mp hx with hpre | hcons
  · exact h x (List.mem_append_left _ hpre)
  · rcases List.mem_cons.mp hcons with rfl | hpost
    · exact h'
    · exact h x (List.mem_append_right _ (List.mem_cons_of_mem _ hpost))

theorem PoolsOk.replace (h : PoolsOk kind (pre ++ al :: post)) (hok : PoolOk kind al')
    (hb : al'.buffer = al.buffer) (hs : al'.size = al.size) :
    PoolsOk kind (pre ++ al' :: post) where
  ne_nil := by simp
  ok := forall_replace h.ok hok
  apart := by
    have hap := h.apart
    simp only [List.pairwise_append, List.pairwise_cons, List.mem_cons, RangeApart] at hap ⊢
    obtain ⟨hpre, ⟨hal, hpost⟩, hcross⟩ := hap
    refine ⟨hpre, ⟨fun x hx => ?_, hpost⟩, fun x hx y hy => ?_⟩
    · rw [hb, hs]
      exact hal x hx
    · rcases hy with rfl | hy
      · rw [hb, hs]
        exact hcross x hx al (Or.inl rfl)
      · exact hcross x hx y (Or.inr hy)

/-- In front of the chain there is place for a pool where `malloc` has some. -/
theorem PoolsOk.cons (h : PoolsOk kind pools) {live : List Block} {a size : Nat}
    (hf : Fresh pools live a size) (hdvd : 2 ^ 18 ∣ size) (hlt : size < 2 ^ 32) :
    PoolsOk kind (talNew a kind.limit size :: pools) where
  ne_nil := List.cons_ne_nil _ _
  ok := by
    intro al hal
    rcases List.mem_cons.mp hal with rfl | hal
    · exact ⟨rfl, hdvd, hlt, hf.1, le_refl a, Or.inl rfl⟩
    · exact h.ok al hal
  apart := List.pairwise_cons.mpr ⟨fun bl hbl => hf.2.1 bl hbl, h.apart⟩

/-- The size of the next pool. -/
theorem PoolOk.next_size (h : PoolOk kind al) :
    2 ^ 18 ∣ al.size * 2 % 2 ^ 32 ∧ al.size * 2 % 2 ^ 32 < 2 ^ 32 := by
  have := h.size_dvd
  omega

end Pools

/-! ## Blocks -/

namespace Block

/-- The first byte of a block, or of its header. -/
def lo (b : Block) : Nat := if b.pooled then b.addr - 4 else b.addr

/-- The end of a block as it has been cut off. -/
def hi (b : Block) : Nat := if b.pooled then b.addr + adjSize b.size else b.addr + b.size

/-- Two blocks have no byte in common, nor have their headers. -/
def Apart (b c : Block) : Prop := b.hi ≤ c.lo ∨ c.hi ≤ b.lo

theorem Apart.symm {b c : Block} (h : b.Apart c) : c.Apart b := Or.symm h

end Block

/-- A live block: in a pool, with its header, or outside all of them. -/
inductive BlockOk (kind : Kind) (mem : Memory) (pools : List TinyAlloc) (b : Block) : Prop
  | pooled (al : TinyAlloc) (hal : al ∈ pools) (hp : b.pooled = true) (hsize : b.size ≤ kind.limit)
      (hlo : al.buffer + 4 ≤ b.addr) (hhi : b.addr + adjSize b.size ≤ al.p)
      (hheader : headerSize mem b.addr = adjSize b.size)
  | malloced (hp : b.pooled = false) (hpos : 0 < b.addr) (hsize : 0 < b.size)
      (hout : ∀ al ∈ pools, b.addr + b.size ≤ al.buffer ∨ al.buffer + al.size ≤ b.addr)

section Blocks

variable {kind : Kind} {mem mem' : Memory} {pools pre post : List TinyAlloc} {al al' : TinyAlloc}
  {b c : Block}

theorem BlockOk.addr_pos (h : BlockOk kind mem pools b) : 0 < b.addr := by
  cases h with
  | pooled al hal hp hsize hlo hhi hheader => omega
  | malloced hp hpos hsize hout => exact hpos

/-- The block itself lies within what has been cut off. -/
theorem BlockOk.range (h : BlockOk kind mem pools b) : b.lo ≤ b.addr ∧ b.addr + b.size ≤ b.hi := by
  unfold Block.lo Block.hi
  cases h with
  | pooled al hal hp hsize hlo hhi hheader =>
      rw [hp]
      have := (kind.adjSize_le hsize).1
      simp only [if_true]
      omega
  | malloced hp hpos hsize hout =>
      rw [hp]
      simp

/-- The header, which is the first part of it. -/
theorem BlockOk.header (h : BlockOk kind mem pools b) (hp : b.pooled = true) :
    b.lo + 4 = b.addr ∧ b.addr ≤ b.hi := by
  unfold Block.lo Block.hi
  cases h with
  | pooled al hal hp' hsize hlo hhi hheader =>
      rw [hp]
      simp only [if_true]
      omega
  | malloced hp' hpos hsize hout => exact absurd (hp.symm.trans hp') (by decide)

theorem BlockOk.owns (hpools : PoolsOk kind pools) (hal : al ∈ pools) (hlo : al.buffer + 4 ≤ b.addr)
    (hhi : b.addr + adjSize b.size ≤ al.p) : al.Owns b.addr := by
  have := (hpools.ok al hal).p_lt
  unfold TinyAlloc.Owns
  omega

theorem BlockOk.not_owns (h : BlockOk kind mem pools b) (hp : b.pooled = false) (hal : al ∈ pools) :
    ¬al.Owns b.addr := by
  cases h with
  | pooled al hal hp' hsize hlo hhi hheader => exact absurd (hp.symm.trans hp') (by decide)
  | malloced hp hpos hsize hout =>
      have := hout al hal
      unfold TinyAlloc.Owns
      omega

/-- Different blocks have different addresses. -/
theorem BlockOk.addr_ne (hpools : PoolsOk kind pools) (hb : BlockOk kind mem pools b)
    (hc : BlockOk kind mem pools c) (h : b.Apart c) : b.addr ≠ c.addr := by
  have hbn := fun hp al (hal : al ∈ pools) => hb.not_owns hp hal
  have hcn := fun hp al (hal : al ∈ pools) => hc.not_owns hp hal
  intro heq
  cases hb with
  | pooled al hal hp hsize hlo hhi hheader =>
      cases hc with
      | pooled al' hal' hp' hsize' hlo' hhi' hheader' =>
          unfold Block.Apart Block.lo Block.hi at h
          rw [hp, hp'] at h
          simp only [if_true] at h
          omega
      | malloced hp' hpos' hsize' hout' =>
          have hown := BlockOk.owns hpools hal hlo hhi
          rw [heq] at hown
          exact hcn hp' al hal hown
  | malloced hp hpos hsize hout =>
      cases hc with
      | pooled al' hal' hp' hsize' hlo' hhi' hheader' =>
          have hown := BlockOk.owns hpools hal' hlo' hhi'
          rw [← heq] at hown
          exact hbn hp al' hal' hown
      | malloced hp' hpos' hsize' hout' =>
          unfold Block.Apart Block.lo Block.hi at h
          rw [hp, hp'] at h
          simp only [Bool.false_eq_true, if_false] at h
          omega

/-- The free end of a pool is free. -/
theorem BlockOk.free_space (hpools : PoolsOk kind pools) (h : BlockOk kind mem pools b)
    (hal : al ∈ pools) : b.hi ≤ al.p ∨ al.buffer + al.size ≤ b.lo := by
  have hok := hpools.ok al hal
  have hle := hok.le_p
  unfold Block.lo Block.hi
  cases h with
  | pooled bl hbl hp hsize hlo hhi hheader =>
      have hbok := (hpools.ok bl hbl).p_le
      rw [hp]
      simp only [if_true]
      rcases hpools.eq_or_apart hal hbl with rfl | h1 | h1
      · exact Or.inl hhi
      · right
        omega
      · left
        omega
  | malloced hp hpos hsize hout =>
      have := hout al hal
      rw [hp]
      simp only [Bool.false_eq_true, if_false]
      omega

/-- Only the header of a block matters. -/
theorem BlockOk.congr_mem (h : BlockOk kind mem pools b)
    (hm : b.pooled = true → Memory.AgreeOn mem mem' (b.addr - 4) 4) :
    BlockOk kind mem' pools b := by
  cases h with
  | pooled al hal hp hsize hlo hhi hheader =>
      refine .pooled al hal hp hsize hlo hhi ?_
      rw [← hheader, headerSize, headerSize, Memory.load_congr (hm hp)]
  | malloced hp hpos hsize hout => exact .malloced hp hpos hsize hout

/-- A pool may change its count, and its free end as long as that does not meet the block. -/
theorem BlockOk.replace (h : BlockOk kind mem (pre ++ al :: post) b)
    (hb : al'.buffer = al.buffer) (hs : al'.size = al.size)
    (hp : al.buffer + 4 ≤ b.addr → b.addr + adjSize b.size ≤ al.p → al.p ≤ al'.p) :
    BlockOk kind mem (pre ++ al' :: post) b := by
  cases h with
  | pooled bl hbl hpooled hsize hlo hhi hheader =>
      rcases List.mem_append.mp hbl with hpre | hcons
      · exact .pooled bl (List.mem_append_left _ hpre) hpooled hsize hlo hhi hheader
      · rcases List.mem_cons.mp hcons with rfl | hpost
        · have := hp hlo hhi
          exact .pooled al' mem_split hpooled hsize (by omega) (by omega) hheader
        · exact .pooled bl (List.mem_append_right _ (List.mem_cons_of_mem _ hpost)) hpooled hsize
            hlo hhi hheader
  | malloced hpooled hpos hsize hout =>
      refine .malloced hpooled hpos hsize (forall_replace hout ?_)
      rw [hb, hs]
      exact hout al mem_split

/-- A new pool is no trouble for a block that `malloc` knows. -/
theorem BlockOk.cons (h : BlockOk kind mem pools b) {live : List Block} {a size : Nat}
    (hf : Fresh pools live a size) (hlive : b.pooled = false → b ∈ live) :
    BlockOk kind mem (talNew a kind.limit size :: pools) b := by
  cases h with
  | pooled al hal hp hsize hlo hhi hheader =>
      exact .pooled al (List.mem_cons_of_mem _ hal) hp hsize hlo hhi hheader
  | malloced hp hpos hsize hout =>
      refine .malloced hp hpos hsize fun al hal => ?_
      rcases List.mem_cons.mp hal with rfl | hal
      · have h3 := hf.2.2 b (hlive hp)
        rw [hp] at h3
        simp only [talNew]
        rcases h3 with h3 | h3 | h3
        · exact absurd h3 (by decide)
        · exact Or.inr h3
        · exact Or.inl h3
      · exact hout al hal

/-- A block that `malloc` gives out now. -/
theorem BlockOk.of_fresh {live : List Block} {a size : Nat} (hf : Fresh pools live a size)
    (hsize : 0 < size) : BlockOk kind mem pools ⟨a, size, false⟩ :=
  .malloced rfl hf.1 hsize hf.2.1

theorem Fresh.apart {live : List Block} {a size : Nat} (hpools : PoolsOk kind pools)
    (hf : Fresh pools live a size) (hb : BlockOk kind mem pools b)
    (hlive : b.pooled = false → b ∈ live) : Block.Apart ⟨a, size, false⟩ b := by
  unfold Block.Apart Block.lo Block.hi
  simp only [Bool.false_eq_true, if_false]
  cases hb with
  | pooled al hal hp hsize hlo hhi hheader =>
      have h2 := hf.2.1 al hal
      have hle := (hpools.ok al hal).p_le
      rw [hp]
      simp only [if_true]
      omega
  | malloced hp hpos hsize hout =>
      have h3 := hf.2.2 b (hlive hp)
      rw [hp] at h3 ⊢
      simp only [Bool.false_eq_true, if_false]
      rcases h3 with h3 | h3 | h3
      · exact absurd h3 (by decide)
      · exact Or.inl h3
      · exact Or.inr h3

end Blocks

end TccRiscv64.Alloc
