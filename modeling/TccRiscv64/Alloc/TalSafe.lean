import TccRiscv64.Alloc.TalInvariant

set_option autoImplicit false

/-! # Runs of the allocator

What every call keeps, and from it what every run does. A block is only ever placed in the free end
of a pool; the one thing that can write past that is the copy of a block that shrinks, because it
copies the old size. -/

namespace TccRiscv64.Alloc

open TccRiscv64.Isa

/-! ## The walks -/

/-- What is known where a walk ends, that has `rest` of the chain `pools` ahead. -/
def Walk.Spec (p size : Nat) (pools rest : List TinyAlloc) : Walk → Prop
  | here pre al post =>
    pools = pre ++ al :: post ∧ (p = 0 ∨ al.Owns p) ∧ size ≤ al.limit ∧ al.HasRoom size
  | moveOut pre al post => pools = pre ++ al :: post ∧ al.Owns p ∧ size ≤ al.limit
  | moveToMalloc pre al post => pools = pre ++ al :: post ∧ al.Owns p ∧ al.limit < size
  | newPool => p = 0
  | tccRealloc =>
    (∀ al ∈ rest, ¬al.Owns p) ∧ (rest ≠ [] → p = 0 → ∃ al ∈ rest, al.limit < size)

theorem Walk.Spec.cons {w : Walk} {p size : Nat} {pools rest : List TinyAlloc} {al : TinyAlloc}
    (h : w.Spec p size pools rest) (hown : ¬al.Owns p) (hne : rest ≠ []) :
    w.Spec p size pools (al :: rest) := by
  cases w with
  | tccRealloc =>
      obtain ⟨hnone, hlarge⟩ := h
      refine ⟨List.forall_mem_cons.mpr ⟨hown, hnone⟩, fun _ hp => ?_⟩
      obtain ⟨bl, hbl, hlt⟩ := hlarge hne hp
      exact ⟨bl, List.mem_cons_of_mem _ hbl, hlt⟩
  | _ => exact h

theorem walk_spec (p size : Nat) (pre pools : List TinyAlloc) :
    (walk p size pre pools).Spec p size (pre ++ pools) pools := by
  induction pools generalizing pre with
  | nil => exact ⟨fun al hal => absurd hal (by simp), fun h => absurd rfl h⟩
  | cons al post ih =>
      have hnext := ih (pre ++ [al])
      rw [List.append_assoc, List.singleton_append] at hnext
      rw [walk]
      by_cases hfor : (p = 0 ∨ al.Owns p) ∧ size ≤ al.limit
      · rw [if_pos hfor]
        by_cases hroom : al.HasRoom size
        · rw [if_pos hroom]
          exact ⟨rfl, hfor.1, hfor.2, hroom⟩
        rw [if_neg hroom]
        by_cases hown : al.Owns p
        · rw [if_pos hown]
          exact ⟨rfl, hown, hfor.2⟩
        rw [if_neg hown]
        by_cases hnil : post = []
        · rw [if_pos hnil]
          exact hfor.1.resolve_right hown
        · rw [if_neg hnil]
          exact hnext.cons hown hnil
      · rw [if_neg hfor]
        by_cases hown : al.Owns p
        · rw [if_pos hown]
          refine ⟨rfl, hown, ?_⟩
          by_contra hle
          exact hfor ⟨Or.inr hown, by omega⟩
        rw [if_neg hown]
        by_cases hnil : post = []
        · rw [if_pos hnil, hnil]
          refine ⟨List.forall_mem_singleton.mpr hown, fun _ h => ⟨al, List.mem_cons_self, ?_⟩⟩
          by_contra hle
          exact hfor ⟨Or.inl h, by omega⟩
        · rw [if_neg hnil]
          exact hnext.cons hown hnil

/-- Where there is no room it does not matter what comes before. -/
theorem walk_newPool {p size : Nat} {pre pools : List TinyAlloc}
    (h : walk p size pre pools = .newPool) (pre' : List TinyAlloc) :
    walk p size pre' pools = .newPool := by
  induction pools generalizing pre pre' with
  | nil => exact absurd h (by simp [walk])
  | cons al post ih =>
      rw [walk] at h ⊢
      split_ifs at h ⊢ <;> first | rfl | exact ih h _

theorem freeWalk_spec (p : Nat) (pools : List TinyAlloc) :
    (∃ pre al post, pools = pre ++ al :: post ∧ al.Owns p ∧
        freeWalk p pools = pre ++
          (if al.uncount.nbAllocs = 0 then { al.uncount with p := al.buffer } else al.uncount)
            :: post) ∨
      (∀ al ∈ pools, ¬al.Owns p) ∧ freeWalk p pools = pools := by
  induction pools with
  | nil => exact Or.inr ⟨fun al hal => absurd hal (by simp), rfl⟩
  | cons al rest ih =>
      rw [freeWalk]
      by_cases hown : al.Owns p
      · rw [if_pos hown]
        exact Or.inl ⟨[], al, rest, rfl, hown, rfl⟩
      · rw [if_neg hown]
        rcases ih with ⟨pre, bl, post, heq, hbl, hwalk⟩ | ⟨hnone, hwalk⟩
        · refine Or.inl ⟨al :: pre, bl, post, by rw [heq]; rfl, hbl, ?_⟩
          rw [hwalk]
          rfl
        · exact Or.inr ⟨List.forall_mem_cons.mpr ⟨hown, hnone⟩, by rw [hwalk]⟩

/-! ## The invariant -/

/-- Pools, blocks and counts. -/
structure Inv (kind : Kind) (mem : Memory) (pools : List TinyAlloc) (live : List Block) : Prop where
  poolsOk : PoolsOk kind pools
  blocksOk : ∀ b ∈ live, BlockOk kind mem pools b
  apart : live.Pairwise Block.Apart
  counted : ∀ al ∈ pools, al.nbAllocs = live.countP fun b => al.Owns b.addr

instance : Std.Symm Block.Apart := ⟨fun _ _ => Block.Apart.symm⟩

/-- One more block counts where it is. -/
theorem countP_owns_cons (al : TinyAlloc) (b : Block) (live : List Block) :
    ((b :: live).countP fun c => al.Owns c.addr)
      = (live.countP fun c => al.Owns c.addr) + if al.Owns b.addr then 1 else 0 := by
  rw [List.countP_cons]
  simp only [decide_eq_true_eq]

section Inv

variable {kind : Kind} {mem mem' : Memory} {pools pre post : List TinyAlloc} {al : TinyAlloc}
  {live live' rest : List Block} {b : Block} {size : Nat}

theorem Inv.perm (h : Inv kind mem pools live) (hp : live.Perm live') :
    Inv kind mem pools live' where
  poolsOk := h.poolsOk
  blocksOk := fun b hb => h.blocksOk b (hp.mem_iff.mpr hb)
  apart := (hp.pairwise_iff fun hbc => Block.Apart.symm hbc).mp h.apart
  counted := fun al hal => by rw [h.counted al hal, hp.countP_eq]

theorem Inv.congr_mem (h : Inv kind mem pools live)
    (hm : ∀ b ∈ live, b.pooled = true → Memory.AgreeOn mem mem' (b.addr - 4) 4) :
    Inv kind mem' pools live where
  poolsOk := h.poolsOk
  blocksOk := fun b hb => (h.blocksOk b hb).congr_mem (hm b hb)
  apart := h.apart
  counted := h.counted

/-- The live block at an address, and the others. -/
theorem perm_eraseP {p : Nat} (h : ∃ b ∈ live, b.addr = p) :
    ∃ b ∈ live, b.addr = p ∧ live.Perm (b :: live.eraseP fun b => b.addr = p) := by
  obtain ⟨c, hc, hcp⟩ := h
  obtain ⟨b, l₁, l₂, -, hb, heq, herase⟩ :=
    List.exists_of_eraseP (p := fun b : Block => decide (b.addr = p)) hc (decide_eq_true hcp)
  refine ⟨b, ?_, of_decide_eq_true hb, ?_⟩
  · rw [heq]
    exact List.mem_append_right _ List.mem_cons_self
  · rw [herase]
    nth_rewrite 1 [heq]
    exact List.perm_middle

/-- No other pool has what a pool has. -/
theorem PoolsOk.others (h : PoolsOk kind (pre ++ al :: post)) {p : Nat} (hp : al.Owns p) :
    (∀ x ∈ pre, ¬x.Owns p) ∧ ∀ x ∈ post, ¬x.Owns p := by
  have hap := h.apart
  simp only [List.pairwise_append, List.pairwise_cons, List.mem_cons, RangeApart] at hap
  obtain ⟨-, ⟨hpost, -⟩, hpre⟩ := hap
  unfold TinyAlloc.Owns at *
  constructor
  · intro x hx
    have := hpre x hx al (Or.inl rfl)
    omega
  · intro x hx
    have := hpost x hx
    omega

/-- A block of a pool is no longer counted. -/
theorem Inv.uncount (h : Inv kind mem (pre ++ al :: post) (b :: rest)) (hb : al.Owns b.addr) :
    Inv kind mem (pre ++ al.uncount :: post) rest where
  poolsOk := by
    have hok := h.poolsOk.ok al mem_split
    exact h.poolsOk.replace ⟨hok.limit, hok.size_dvd, hok.size_lt, hok.buffer_pos, hok.le_p, hok.p_lt⟩
      rfl rfl
  blocksOk := fun c hc =>
    (h.blocksOk c (List.mem_cons_of_mem _ hc)).replace rfl rfl fun _ _ => le_refl _
  apart := (List.pairwise_cons.mp h.apart).2
  counted := by
    obtain ⟨hpre, hpost⟩ := h.poolsOk.others hb
    intro x hx
    rcases List.mem_append.mp hx with hxp | hxc
    · have hc := h.counted x (List.mem_append_left _ hxp)
      rw [countP_owns_cons, if_neg (hpre x hxp)] at hc
      exact hc
    · rcases List.mem_cons.mp hxc with rfl | hxp
      · have hc := h.counted al mem_split
        rw [countP_owns_cons, if_pos hb] at hc
        show al.nbAllocs - 1 = List.countP (fun c => decide (al.Owns c.addr)) rest
        omega
      · have hc := h.counted x (List.mem_append_right _ (List.mem_cons_of_mem _ hxp))
        rw [countP_owns_cons, if_neg (hpost x hxp)] at hc
        exact hc

/-- A block of no pool goes. -/
theorem Inv.drop (h : Inv kind mem pools (b :: rest)) (hb : ∀ al ∈ pools, ¬al.Owns b.addr) :
    Inv kind mem pools rest where
  poolsOk := h.poolsOk
  blocksOk := fun c hc => h.blocksOk c (List.mem_cons_of_mem _ hc)
  apart := (List.pairwise_cons.mp h.apart).2
  counted := fun al hal => by
    rw [h.counted al hal, countP_owns_cons, if_neg (hb al hal), Nat.add_zero]

/-- The block that a pool with room gives out. -/
def TinyAlloc.next (al : TinyAlloc) (size : Nat) : Block := ⟨al.p + 4, size, true⟩

theorem TinyAlloc.HasRoom.place (hroom : al.HasRoom size) (hok : PoolOk kind al) :
    al.p + 4 + adjSize size < al.buffer + al.size := by
  have := hok.le_p
  unfold TinyAlloc.HasRoom at hroom
  omega

theorem PoolOk.bump (hok : PoolOk kind al) (hroom : al.HasRoom size) :
    PoolOk kind (al.bump size).count := by
  have := hroom.place hok
  have := hok.le_p
  refine ⟨hok.limit, hok.size_dvd, hok.size_lt, hok.buffer_pos, ?_, Or.inr ?_⟩
  · show al.buffer ≤ al.p + (adjSize size + 4)
    omega
  · show al.p + (adjSize size + 4) < al.buffer + al.size
    omega

theorem agreeOn_writeHeader {q k : Nat} (h : q + k ≤ al.p ∨ al.p + 4 ≤ q) :
    Memory.AgreeOn mem (writeHeader mem al size) q k :=
  Memory.agreeOn_store mem al.p 4 _ h

theorem headerSize_writeHeader (hsize : size ≤ kind.limit) :
    headerSize (writeHeader mem al size) (al.p + 4) = adjSize size := by
  have hle := (kind.adjSize_le hsize).2
  have hlimit := kind.limit_spec.2.1
  rw [headerSize, Nat.add_sub_cancel, writeHeader, Memory.load_store]
  show (BitVec.ofNat 32 (adjSize size)).toNat = adjSize size
  rw [BitVec.toNat_ofNat]
  omega

/-- A pool gives out a block. -/
theorem Inv.place (h : Inv kind mem (pre ++ al :: post) live) (hsize : size ≤ kind.limit)
    (hroom : al.HasRoom size) :
    Inv kind (writeHeader mem al size) (pre ++ (al.bump size).count :: post)
      (al.next size :: live) := by
  have hok := h.poolsOk.ok al mem_split
  have hfree := fun c hc =>
    (h.blocksOk c hc).free_space h.poolsOk (show al ∈ pre ++ al :: post from mem_split)
  have hplace := hroom.place hok
  have hpools := h.poolsOk.replace (hok.bump hroom) rfl rfl
  have hown : al.Owns (al.next size).addr := by
    have := hok.le_p
    show al.buffer ≤ al.p + 4 ∧ al.p + 4 < al.buffer + al.size
    omega
  refine ⟨hpools, ?_, List.pairwise_cons.mpr ⟨?_, h.apart⟩, ?_⟩
  · intro c hc
    rcases List.mem_cons.mp hc with rfl | hc
    · refine .pooled _ mem_split rfl hsize ?_ ?_ (headerSize_writeHeader hsize)
      · have := hok.le_p
        show al.buffer + 4 ≤ al.p + 4
        omega
      · show al.p + 4 + adjSize size ≤ al.p + (adjSize size + 4)
        omega
    · have hle : al.p ≤ (al.bump size).count.p := by
        show al.p ≤ al.p + (adjSize size + 4)
        omega
      have hrep : BlockOk kind mem (pre ++ (al.bump size).count :: post) c :=
        (h.blocksOk c hc).replace rfl rfl fun _ _ => hle
      refine hrep.congr_mem fun hp => ?_
      apply agreeOn_writeHeader
      have hc' := hfree c hc
      have hheader := (h.blocksOk c hc).header hp
      omega
  · intro c hc
    have hc' := hfree c hc
    show (al.next size).hi ≤ c.lo ∨ c.hi ≤ (al.next size).lo
    have hlo : (al.next size).lo = al.p := by
      show al.p + 4 - 4 = al.p
      omega
    have hhi : (al.next size).hi = al.p + 4 + adjSize size := rfl
    omega
  · obtain ⟨hpre, hpost⟩ := h.poolsOk.others hown
    intro x hx
    rcases List.mem_append.mp hx with hxp | hxc
    · rw [countP_owns_cons, if_neg (hpre x hxp), Nat.add_zero]
      exact h.counted x (List.mem_append_left _ hxp)
    · rcases List.mem_cons.mp hxc with rfl | hxp
      · have hc := h.counted al mem_split
        rw [countP_owns_cons, if_pos (show (al.bump size).count.Owns (al.next size).addr from hown)]
        exact congrArg (· + 1) hc
      · rw [countP_owns_cons, if_neg (hpost x hxp), Nat.add_zero]
        exact h.counted x (List.mem_append_right _ (List.mem_cons_of_mem _ hxp))

/-- `malloc` gives out a block. -/
theorem Inv.malloc (h : Inv kind mem pools live) {known : List Block} {a : Nat}
    (hknown : ∀ b ∈ live, b.pooled = false → b ∈ known) (hf : Fresh pools known a size)
    (hsize : 0 < size) : Inv kind mem pools (⟨a, size, false⟩ :: live) := by
  have hnew : BlockOk kind mem pools ⟨a, size, false⟩ := .of_fresh hf hsize
  refine ⟨h.poolsOk, List.forall_mem_cons.mpr ⟨hnew, h.blocksOk⟩, List.pairwise_cons.mpr ⟨?_, h.apart⟩,
    ?_⟩
  · intro c hc
    exact hf.apart h.poolsOk (h.blocksOk c hc) (hknown c hc)
  · intro al hal
    rw [countP_owns_cons, if_neg (hnew.not_owns rfl hal), Nat.add_zero]
    exact h.counted al hal

/-- A new pool. -/
theorem Inv.newPool (h : Inv kind mem pools live) {known : List Block} {a : Nat}
    (hknown : ∀ b ∈ live, b.pooled = false → b ∈ known) (hf : Fresh pools known a size)
    (hdvd : 2 ^ 18 ∣ size) (hlt : size < 2 ^ 32) :
    Inv kind mem (talNew a kind.limit size :: pools) live := by
  have hpools := h.poolsOk.cons hf hdvd hlt
  refine ⟨hpools, fun b hb => (h.blocksOk b hb).cons hf (hknown b hb), h.apart, ?_⟩
  intro al hal
  rcases List.mem_cons.mp hal with rfl | hal
  · -- every block is in an older pool or in none
    symm
    show List.countP _ live = 0
    rw [List.countP_eq_zero]
    intro b hb
    have hown : ¬(talNew a kind.limit size).Owns b.addr := by
      intro hown
      cases h.blocksOk b hb with
      | pooled bl hbl hp hs hlo hhi hheader =>
          have hbown := BlockOk.owns h.poolsOk hbl hlo hhi
          have heq := hpools.eq_of_owns List.mem_cons_self (List.mem_cons_of_mem _ hbl) hown hbown
          have := hf.2.1 bl hbl
          rw [← heq] at this hbown
          unfold TinyAlloc.Owns talNew at *
          dsimp only at *
          omega
      | malloced hp hpos hs hout =>
          have hb' := (h.blocksOk b hb).cons hf (hknown b hb)
          exact hb'.not_owns hp List.mem_cons_self hown
    simpa using hown
  · exact h.counted al hal

end Inv

end TccRiscv64.Alloc
