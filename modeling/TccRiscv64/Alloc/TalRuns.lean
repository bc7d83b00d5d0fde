import TccRiscv64.Alloc.TalSafe

set_option autoImplicit false

/-! # What calls of the allocator do

Each call keeps the invariant, and a block that is reallocated keeps its bytes, as long as no copy
runs past the end of a pool; so do runs of any length. -/

namespace TccRiscv64.Alloc

open TccRiscv64.Isa

/-! ## Allocation -/

/-- The chain after some new pools have been put in front of it. -/
inductive Extends (known : List Block) (kind : Kind) (pools : List TinyAlloc) :
    List TinyAlloc → Prop
  | refl : Extends known kind pools pools
  | cons {ps : List TinyAlloc} {a size : Nat} (h : Extends known kind pools ps)
      (hf : Fresh ps known a size) (hdvd : 2 ^ 18 ∣ size) (hlt : size < 2 ^ 32) :
      Extends known kind pools (talNew a kind.limit size :: ps)

section Allocation

variable {kind : Kind} {mem mem' : Memory} {known : List Block} {pools pools' ps : List TinyAlloc}
  {live : List Block} {b : Block} {size : Nat}

theorem Extends.trans (h : Extends known kind pools pools') (h' : Extends known kind pools' ps) :
    Extends known kind pools ps := by
  induction h' with
  | refl => exact h
  | cons _ hf hdvd hlt ih => exact ih.cons hf hdvd hlt

theorem Extends.mem_of (h : Extends known kind pools ps) {al : TinyAlloc} (hal : al ∈ pools) :
    al ∈ ps := by
  induction h with
  | refl => exact hal
  | cons _ _ _ _ ih => exact List.mem_cons_of_mem _ ih

theorem Extends.inv (h : Extends known kind pools ps) (hinv : Inv kind mem pools live)
    (hknown : ∀ b ∈ live, b.pooled = false → b ∈ known) : Inv kind mem ps live := by
  induction h with
  | refl => exact hinv
  | cons _ hf hdvd hlt ih => exact ih.newPool hknown hf hdvd hlt

theorem Extends.blockOk (h : Extends known kind pools ps) (hb : BlockOk kind mem pools b)
    (hknown : b.pooled = false → b ∈ known) : BlockOk kind mem ps b := by
  induction h with
  | refl => exact hb
  | cons _ hf _ _ ih => exact ih.cons hf hknown

/-- What an allocation does: it places a block in a pool of the chain, or in one that has just been
added, or, where it is large, leaves it to `malloc`. -/
inductive Allocated (kind : Kind) (known : List Block) (size : Nat) (mem : Memory)
    (pools : List TinyAlloc) : Memory → List TinyAlloc → Block → Prop
  | pooled {ps pre post : List TinyAlloc} {al : TinyAlloc} (hext : Extends known kind pools ps)
      (heq : ps = pre ++ al :: post) (hsize : size ≤ kind.limit) (hroom : al.HasRoom size)
      (hwalk : walk 0 size [] pools = .here pre al post ∨
        walk 0 size [] pools = .newPool ∧ al.p = al.buffer) :
      Allocated kind known size mem pools (writeHeader mem al size)
        (pre ++ (al.bump size).count :: post) (al.next size)
  | malloced {a : Nat} (hf : Fresh pools known a size) (hsize : kind.limit < size)
      (hwalk : walk 0 size [] pools = .tccRealloc) :
      Allocated kind known size mem pools mem pools ⟨a, size, false⟩

/-- In front of pools without room a new one may have some. -/
theorem walk_cons_newPool {al : TinyAlloc} (h : walk 0 size [] pools = .newPool) (hal : ¬al.Owns 0)
    (hne : pools ≠ []) :
    walk 0 size [] (al :: pools) = .newPool ∨
      ∃ pre post, walk 0 size [] (al :: pools) = .here pre al post := by
  have hrest : walk 0 size ([] ++ [al]) pools = .newPool := walk_newPool h _
  rw [walk, if_neg hal, if_neg hal, if_neg hne, hrest]
  split
  · split
    · exact Or.inr ⟨[], pools, rfl⟩
    · exact Or.inl rfl
  · exact Or.inl rfl

theorem talMalloc_spec {addrs : List Nat} (hpools : PoolsOk kind pools)
    (h : talMalloc known size addrs mem pools = some (mem', pools', b)) :
    Allocated kind known size mem pools mem' pools' b := by
  induction addrs generalizing pools with
  | nil =>
      have hspec := walk_spec 0 size [] pools
      rw [List.nil_append] at hspec
      unfold talMalloc at h
      split at h
      · next pre al post hw =>
          rw [hw] at hspec
          obtain ⟨heq, -, hlimit, hroom⟩ := hspec
          obtain ⟨rfl, rfl, rfl⟩ : _ = mem' ∧ _ = pools' ∧ _ = b := by simpa using h
          have hok := hpools.ok al (heq ▸ mem_split)
          exact .pooled .refl heq (hok.limit ▸ hlimit) hroom (Or.inl hw)
      · exact absurd h (by simp)
      · exact absurd h (by simp)
      · exact absurd h (by simp)
      · exact absurd h (by simp)
  | cons a addrs ih =>
      have hspec := walk_spec 0 size [] pools
      rw [List.nil_append] at hspec
      unfold talMalloc at h
      split at h
      · next pre al post hw =>
          rw [hw] at hspec
          obtain ⟨heq, -, hlimit, hroom⟩ := hspec
          obtain ⟨rfl, rfl, rfl⟩ : _ = mem' ∧ _ = pools' ∧ _ = b := by simpa using h
          have hok := hpools.ok al (heq ▸ mem_split)
          exact .pooled .refl heq (hok.limit ▸ hlimit) hroom (Or.inl hw)
      · next hw =>
          dsimp only at h
          split at h
          · exact absurd h (by simp)
          · next next rest =>
              split at h
              · next hf =>
                  have hok := hpools.ok next List.mem_cons_self
                  obtain ⟨hdvd, hlt⟩ := hok.next_size
                  rw [hok.limit] at h
                  have hrec := ih (hpools.cons hf hdvd hlt) h
                  have hext : Extends known kind (next :: rest)
                      (talNew a kind.limit (next.size * 2 % 2 ^ 32) :: next :: rest) :=
                    Extends.refl.cons hf hdvd hlt
                  -- the walk goes no further than the new pool
                  have hzero : ¬(talNew a kind.limit (next.size * 2 % 2 ^ 32)).Owns 0 := by
                    have := hf.1
                    unfold TinyAlloc.Owns talNew
                    dsimp only
                    omega
                  have hfirst := walk_cons_newPool hw hzero (List.cons_ne_nil _ _)
                  cases hrec with
                  | pooled hext' heq hsize hroom hwalk =>
                      refine .pooled (hext.trans hext') heq hsize hroom (Or.inr ⟨hw, ?_⟩)
                      rcases hwalk with hwalk | ⟨-, hp⟩
                      · rcases hfirst with hfirst | ⟨pre, post, hfirst⟩
                        · exact absurd (hfirst.symm.trans hwalk) (by simp)
                        · obtain ⟨-, rfl, -⟩ := Walk.here.inj (hfirst.symm.trans hwalk)
                          rfl
                      · exact hp
                  | malloced hf' hsize hwalk =>
                      rcases hfirst with hfirst | ⟨pre, post, hfirst⟩
                      · exact absurd (hfirst.symm.trans hwalk) (by simp)
                      · exact absurd (hfirst.symm.trans hwalk) (by simp)
              · exact absurd h (by simp)
      · next hw =>
          dsimp only at h
          split at h
          · next hf =>
              rw [hw] at hspec
              obtain ⟨al, hal, hlt⟩ := hspec.2 hpools.ne_nil rfl
              obtain ⟨rfl, rfl, rfl⟩ : mem = mem' ∧ pools = pools' ∧ _ = b := by simpa using h
              exact .malloced hf ((hpools.ok al hal).limit ▸ hlt) hw
          · exact absurd h (by simp)
      · exact absurd h (by simp)
      · exact absurd h (by simp)

end Allocation

/-! ## Copies -/

section Copies

variable {kind : Kind} {mem : Memory} {pools pre post : List TinyAlloc} {al : TinyAlloc}
  {live rest : List Block} {b c : Block} {p size n : Nat}

theorem agreeOn_memcpy (m : Memory) {dst src q k : Nat} (h : q + k ≤ dst ∨ dst + n ≤ q) :
    Memory.AgreeOn m (memcpy m dst src n) q k := by
  intro a ha ha'
  rw [memcpy, if_neg (by omega)]

theorem memcpy_add (m : Memory) {dst src j : Nat} (hj : j < n) :
    memcpy m dst src n (dst + j) = m (src + j) := by
  rw [memcpy, if_pos (by omega), Nat.add_sub_cancel_left]

/-- A copy to a block leaves the invariant alone, if it reaches no other block. -/
theorem Inv.copy (h : Inv kind mem pools (b :: rest)) {src : Nat}
    (hrest : ∀ c ∈ rest, c.pooled = true → c.hi ≤ b.addr ∨ b.addr + n ≤ c.lo) :
    Inv kind (memcpy mem b.addr src n) pools (b :: rest) := by
  apply h.congr_mem
  intro c hc hp
  have hheader := (h.blocksOk c hc).header hp
  apply agreeOn_memcpy
  rcases List.mem_cons.mp hc with rfl | hc
  · omega
  · have := hrest c hc hp
    omega

theorem BlockOk.pooled_of_owns (h : BlockOk kind mem pools b) (hal : al ∈ pools)
    (hown : al.Owns b.addr) : b.pooled = true := by
  rw [← Bool.not_eq_false]
  exact fun hp => h.not_owns hp hal hown

/-- The header of a block in a pool says how large it is, which is not more than fits. -/
theorem BlockOk.headerSize_eq (h : BlockOk kind mem pools b) (hp : b.pooled = true) :
    headerSize mem b.addr = adjSize b.size ∧ b.addr + adjSize b.size = b.hi ∧
      adjSize b.size ≤ kind.limit ∧ b.size ≤ adjSize b.size := by
  cases h with
  | pooled al hal hp' hsize hlo hhi hheader =>
      obtain ⟨hle, hlimit⟩ := kind.adjSize_le hsize
      refine ⟨hheader, ?_, hlimit, hle⟩
      unfold Block.hi
      rw [hp, if_pos rfl]
  | malloced hp' hpos hsize hout => exact absurd (hp.symm.trans hp') (by decide)

/-- There is one live block at an address. -/
theorem Inv.eq_of_addr (h : Inv kind mem pools live) (hb : b ∈ live) (hc : c ∈ live)
    (heq : b.addr = c.addr) : b = c := by
  by_contra hne
  exact (h.blocksOk b hb).addr_ne h.poolsOk (h.blocksOk c hc) (h.apart.forall hb hc hne) heq

theorem Inv.sizeOf_eq (h : Inv kind mem pools live) (hb : b ∈ live) :
    sizeOf live b.addr = b.size := by
  unfold sizeOf
  split
  · next c hfind =>
      have haddr : c.addr = b.addr := by simpa using List.find?_some hfind
      rw [h.eq_of_addr (List.mem_of_find?_eq_some hfind) hb haddr]
  · next hnone =>
      have := List.find?_eq_none.mp hnone b hb
      simp at this

end Copies

/-! ## Calls -/

/-- Every pool is still there, and its free end has not moved back. -/
def Grows (pools pools' : List TinyAlloc) : Prop :=
  ∀ al ∈ pools, ∃ al' ∈ pools', al'.buffer = al.buffer ∧ al'.size = al.size ∧ al.p ≤ al'.p

section Calls

variable {kind : Kind} {s s' : State} {pre post pools pools' : List TinyAlloc} {al al' : TinyAlloc}
  {p size ret : Nat} {addrs : List Nat}

theorem grows_refl (pools : List TinyAlloc) : Grows pools pools :=
  fun al hal => ⟨al, hal, rfl, rfl, le_refl _⟩

theorem grows_replace (hb : al'.buffer = al.buffer) (hs : al'.size = al.size) (hp : al.p ≤ al'.p) :
    Grows (pre ++ al :: post) (pre ++ al' :: post) := by
  intro x hx
  rcases List.mem_append.mp hx with hx | hx
  · exact ⟨x, List.mem_append_left _ hx, rfl, rfl, le_refl _⟩
  · rcases List.mem_cons.mp hx with rfl | hx
    · exact ⟨al', mem_split, hb, hs, hp⟩
    · exact ⟨x, List.mem_append_right _ (List.mem_cons_of_mem _ hx), rfl, rfl, le_refl _⟩

theorem Grows.trans {pools'' : List TinyAlloc} (h : Grows pools pools') (h' : Grows pools' pools'') :
    Grows pools pools'' := by
  intro x hx
  obtain ⟨y, hy, hyb, hys, hyp⟩ := h x hx
  obtain ⟨z, hz, hzb, hzs, hzp⟩ := h' y hy
  exact ⟨z, hz, hzb.trans hyb, hzs.trans hys, hyp.trans hzp⟩

theorem Allocated.grows {known : List Block} {mem mem' : Memory} {b : Block}
    (h : Allocated kind known size mem pools mem' pools' b) : Grows pools pools' := by
  cases h with
  | @pooled ps pre post al hext heq hsize hroom hwalk =>
      have hrep : Grows (pre ++ al :: post) (pre ++ (al.bump size).count :: post) :=
        grows_replace rfl rfl (Nat.le_add_right _ _)
      intro x hx
      exact hrep x (heq ▸ hext.mem_of hx)
  | malloced hf hsize hwalk => exact grows_refl _

/-- What is asked of a call. -/
structure CallOk (kind : Kind) (s : State) (p size : Nat) (s' : State) (ret : Nat) : Prop where
  inv : Inv kind s'.mem s'.pools s'.live
  keeps : ∀ b ∈ s.live, b.addr = p → ∀ j < min b.size size, s'.mem (ret + j) = s.mem (p + j)
  grows : Grows s.pools s'.pools

/-- A block is allocated. -/
theorem talRealloc_null (h : Inv kind s.mem s.pools s.live)
    (hc : talRealloc s 0 size addrs = some (s', ret)) : CallOk kind s 0 size s' ret := by
  rw [talRealloc, if_pos rfl] at hc
  split at hc
  · exact absurd hc (by simp)
  · next mem pools b hm =>
      obtain ⟨rfl, rfl⟩ : _ = s' ∧ _ = ret := by simpa using hc
      have hspec := talMalloc_spec h.poolsOk hm
      refine ⟨?_, fun b hb hzero => absurd hzero (h.blocksOk b hb).addr_pos.ne', hspec.grows⟩
      cases hspec with
      | pooled hext heq hsize hroom hwalk =>
          have hinv := hext.inv h fun b hb _ => hb
          rw [heq] at hinv
          exact hinv.place hsize hroom
      | malloced hf hsize hwalk =>
          exact h.malloc (fun b hb _ => hb) hf (by omega)

/-- A block is moved within its pool. -/
theorem talRealloc_here (h : Inv kind s.mem s.pools s.live) {b : Block} {rest : List Block}
    (hperm : s.live.Perm (b :: rest)) (heq : s.pools = pre ++ al :: post) (hown : al.Owns b.addr)
    (hsize : size ≤ al.limit) (hroom : al.HasRoom size)
    (hfits : al.p + 4 + headerSize s.mem b.addr ≤ al.buffer + al.size) :
    CallOk kind s b.addr size
      ⟨memcpy (writeHeader s.mem al size) (al.p + 4) b.addr
          (headerSize (writeHeader s.mem al size) b.addr),
        pre ++ al.bump size :: post, al.next size :: rest⟩ (al.p + 4) := by
  have hb : b ∈ s.live := hperm.mem_iff.mpr List.mem_cons_self
  have hal : al ∈ s.pools := heq ▸ mem_split
  have hok := h.poolsOk.ok al hal
  have hbok := h.blocksOk b hb
  have hpooled := hbok.pooled_of_owns hal hown
  obtain ⟨hheader, hhi, hlimit, hle⟩ := hbok.headerSize_eq hpooled
  have hheaderLo := hbok.header hpooled
  have hfree := hbok.free_space h.poolsOk hal
  have hsame : headerSize (writeHeader s.mem al size) b.addr = adjSize b.size := by
    rw [← hheader, headerSize, headerSize,
      Memory.load_congr (agreeOn_writeHeader (q := b.addr - 4) (k := 4) (by omega))]
  have hinv := h.perm hperm
  rw [heq] at hinv
  have hcount : al.uncount.count = al := by
    have hc := hinv.counted al mem_split
    rw [countP_owns_cons, if_pos hown] at hc
    show { al with nbAllocs := al.nbAllocs - 1 + 1 } = al
    rw [Nat.sub_add_cancel (by omega)]
  have hplaced := (hinv.uncount hown).place (hok.limit ▸ hsize) hroom
  rw [show (al.uncount.bump size).count = (al.uncount.count).bump size from rfl, hcount] at hplaced
  rw [hsame]
  refine ⟨Inv.copy (b := al.next size) hplaced ?_, ?_, ?_⟩
  · intro c hc _
    have hcs : c ∈ s.live := hperm.mem_iff.mpr (List.mem_cons_of_mem _ hc)
    have hcfree := (h.blocksOk c hcs).free_space h.poolsOk hal
    show c.hi ≤ al.p + 4 ∨ al.p + 4 + adjSize b.size ≤ c.lo
    omega
  · intro b' hb' haddr j hj
    obtain rfl := h.eq_of_addr hb' hb haddr
    show memcpy _ _ _ _ _ = _
    rw [memcpy_add _ (by omega)]
    exact agreeOn_writeHeader (q := b'.addr) (k := adjSize b'.size) (by omega) _ (by omega) (by omega)
  · show Grows s.pools _
    rw [heq]
    exact grows_replace rfl rfl (Nat.le_add_right _ _)

/-- A block is moved to another pool. -/
theorem talRealloc_moveOut (h : Inv kind s.mem s.pools s.live) {b : Block} {rest : List Block}
    (hperm : s.live.Perm (b :: rest)) (heq : s.pools = pre ++ al :: post) (hown : al.Owns b.addr)
    (hsize : size ≤ al.limit) {mem : Memory} {b' : Block}
    (hm : talMalloc s.live size addrs s.mem (pre ++ al.uncount :: post) = some (mem, pools', b'))
    (hfits : ∀ pre' d post', walk 0 size [] (pre ++ al.uncount :: post) = .here pre' d post' →
      d.p + 4 + headerSize s.mem b.addr ≤ d.buffer + d.size) :
    CallOk kind s b.addr size
      ⟨memcpy mem b'.addr b.addr (headerSize mem b.addr), pools', b' :: rest⟩ b'.addr := by
  have hb : b ∈ s.live := hperm.mem_iff.mpr List.mem_cons_self
  have hal : al ∈ s.pools := heq ▸ mem_split
  have hok := h.poolsOk.ok al hal
  have hbok := h.blocksOk b hb
  have hpooled := hbok.pooled_of_owns hal hown
  obtain ⟨hheader, hhi, hlimit, hle⟩ := hbok.headerSize_eq hpooled
  have hheaderLo := hbok.header hpooled
  have hinv := h.perm hperm
  rw [heq] at hinv
  have huncount := hinv.uncount hown
  have hrest : ∀ c ∈ rest, c.pooled = false → c ∈ s.live :=
    fun c hc _ => hperm.mem_iff.mpr (List.mem_cons_of_mem _ hc)
  have hspec := talMalloc_spec huncount.poolsOk hm
  have hgrows := hspec.grows
  cases hspec with
  | malloced hf hlarge hwalk => exact absurd hsize (by rw [hok.limit]; omega)
  | @pooled ps pre' post' d hext hps hsize' hroom hwalk =>
      have hps' := hext.inv huncount hrest
      -- the old block is still where it was
      have hbps : BlockOk kind s.mem ps b := by
        refine hext.blockOk ?_ fun hp => absurd (hp.symm.trans hpooled) (by decide)
        rw [heq] at hbok
        exact hbok.replace rfl rfl fun _ _ => le_refl _
      have hd : d ∈ ps := hps ▸ mem_split
      have hdok := hps'.poolsOk.ok d hd
      have hfree := hbps.free_space hps'.poolsOk hd
      have hplace := hroom.place hdok
      have hsame : headerSize (writeHeader s.mem d size) b.addr = adjSize b.size := by
        rw [← hheader, headerSize, headerSize,
          Memory.load_congr (agreeOn_writeHeader (q := b.addr - 4) (k := 4) (by omega))]
      have hroom' : d.p + 4 + adjSize b.size ≤ d.buffer + d.size := by
        rcases hwalk with hwalk | ⟨-, hp⟩
        · rw [← hheader]
          exact hfits _ _ _ hwalk
        · obtain ⟨k, hk⟩ := hdok.size_dvd
          have := kind.limit_spec.2.1
          omega
      rw [hps] at hps'
      rw [hsame]
      refine ⟨Inv.copy (b := d.next size) (hps'.place hsize' hroom) ?_, ?_, ?_⟩
      · intro c hc _
        have hcfree := (hps'.blocksOk c hc).free_space hps'.poolsOk mem_split
        show c.hi ≤ d.p + 4 ∨ d.p + 4 + adjSize b.size ≤ c.lo
        omega
      · intro b' hb' haddr j hj
        obtain rfl := h.eq_of_addr hb' hb haddr
        show memcpy _ _ _ _ _ = _
        rw [memcpy_add _ (by omega)]
        exact agreeOn_writeHeader (q := b'.addr) (k := adjSize b'.size) (by omega) _ (by omega)
          (by omega)
      · refine Grows.trans ?_ hgrows
        rw [heq]
        exact grows_replace rfl rfl (le_refl _)

/-- A block gets too large for a pool. -/
theorem talRealloc_moveToMalloc (h : Inv kind s.mem s.pools s.live) {b : Block} {rest : List Block}
    (hperm : s.live.Perm (b :: rest)) (heq : s.pools = pre ++ al :: post) (hown : al.Owns b.addr)
    (hsize : al.limit < size) {a : Nat} (hf : Fresh s.pools s.live a size) :
    CallOk kind s b.addr size
      ⟨memcpy s.mem a b.addr (headerSize s.mem b.addr), pre ++ al.uncount :: post,
        ⟨a, size, false⟩ :: rest⟩ a := by
  have hb : b ∈ s.live := hperm.mem_iff.mpr List.mem_cons_self
  have hal : al ∈ s.pools := heq ▸ mem_split
  have hbok := h.blocksOk b hb
  obtain ⟨hheader, hhi, hlimit, hle⟩ := hbok.headerSize_eq (hbok.pooled_of_owns hal hown)
  have hmalloc := h.malloc (fun b hb _ => hb) hf (by omega : 0 < size)
  have hap := (List.pairwise_cons.mp hmalloc.apart).1
  have hswap : (⟨a, size, false⟩ :: s.live : List Block).Perm (b :: ⟨a, size, false⟩ :: rest) :=
    (hperm.cons _).trans (List.Perm.swap _ _ _)
  have hinv := hmalloc.perm hswap
  rw [heq] at hinv
  rw [hheader]
  have hlim := (h.poolsOk.ok al hal).limit
  refine ⟨Inv.copy (b := ⟨a, size, false⟩) (hinv.uncount hown) ?_, ?_, ?_⟩
  · intro c hc _
    have hcap : a + size ≤ c.lo ∨ c.hi ≤ a := hap c (hperm.mem_iff.mpr (List.mem_cons_of_mem _ hc))
    show c.hi ≤ a ∨ a + adjSize b.size ≤ c.lo
    omega
  · intro b' hb' haddr j hj
    obtain rfl := h.eq_of_addr hb' hb haddr
    exact memcpy_add _ (by omega)
  · rw [heq]
    exact grows_replace rfl rfl (le_refl _)

/-- A block of `malloc` is given back. -/
theorem talRealloc_drop (h : Inv kind s.mem s.pools s.live) {b : Block} {rest : List Block}
    (hperm : s.live.Perm (b :: rest)) (hnone : ∀ al ∈ s.pools, ¬al.Owns b.addr) :
    CallOk kind s b.addr 0 ⟨s.mem, s.pools, rest⟩ 0 :=
  ⟨(h.perm hperm).drop hnone, fun _ _ _ j hj => absurd hj (by omega), grows_refl _⟩

/-- A block of `malloc` is reallocated by `realloc`. -/
theorem talRealloc_tccRealloc (h : Inv kind s.mem s.pools s.live) {b : Block} {rest : List Block}
    (hperm : s.live.Perm (b :: rest)) (hnone : ∀ al ∈ s.pools, ¬al.Owns b.addr) (hsize : 0 < size)
    {a : Nat} (hf : Fresh s.pools rest a size) :
    CallOk kind s b.addr size
      ⟨memcpy s.mem a b.addr (min (sizeOf s.live b.addr) size), s.pools,
        ⟨a, size, false⟩ :: rest⟩ a := by
  have hb : b ∈ s.live := hperm.mem_iff.mpr List.mem_cons_self
  have hinv := ((h.perm hperm).drop hnone).malloc (fun b hb _ => hb) hf hsize
  have hap := (List.pairwise_cons.mp hinv.apart).1
  rw [h.sizeOf_eq hb]
  refine ⟨Inv.copy (b := ⟨a, size, false⟩) hinv ?_, ?_, grows_refl _⟩
  · intro c hc _
    have hcap : a + size ≤ c.lo ∨ c.hi ≤ a := hap c hc
    show c.hi ≤ a ∨ a + min b.size size ≤ c.lo
    omega
  · intro b' hb' haddr j hj
    obtain rfl := h.eq_of_addr hb' hb haddr
    exact memcpy_add _ (by omega)

/-- **Reallocation keeps the invariant and the bytes**, where no copy runs past the end of a pool. -/
theorem talRealloc_ok (h : Inv kind s.mem s.pools s.live)
    (hv : (Call.realloc p size).Valid s) (hfits : ¬Overruns s (.realloc p size))
    (hc : talRealloc s p size addrs = some (s', ret)) : CallOk kind s p size s' ret := by
  by_cases hp : p = 0
  · subst hp
    exact talRealloc_null h hc
  obtain ⟨b, hb, rfl, hperm⟩ := perm_eraseP (hv.1.resolve_left hp)
  have hspec := walk_spec b.addr size [] s.pools
  rw [List.nil_append] at hspec
  have hfits' : ∀ d, movesTo s.pools b.addr size = some d →
      d.p + 4 + headerSize s.mem b.addr ≤ d.buffer + d.size := by
    intro d hd
    by_contra hlt
    exact hfits ⟨d, hp, hd, by omega⟩
  unfold movesTo at hfits'
  rw [talRealloc, if_neg hp] at hc
  dsimp only at hc
  split at hc
  · next pre al post hw =>
      rw [hw] at hspec hfits'
      obtain ⟨heq, hown, hsize, hroom⟩ := hspec
      obtain ⟨rfl, rfl⟩ : _ = s' ∧ _ = ret := by simpa using hc
      exact talRealloc_here h hperm heq (hown.resolve_left hp) hsize hroom (hfits' al rfl)
  · next pre al post hw =>
      rw [hw] at hspec hfits'
      obtain ⟨heq, hown, hsize⟩ := hspec
      split at hc
      · exact absurd hc (by simp)
      · next mem pools' b' hm =>
          obtain ⟨rfl, rfl⟩ : _ = s' ∧ _ = ret := by simpa using hc
          refine talRealloc_moveOut h hperm heq hown hsize hm fun pre' d post' hd => hfits' d ?_
          dsimp only
          rw [hd]
  · next pre al post hw =>
      rw [hw] at hspec
      obtain ⟨heq, hown, hsize⟩ := hspec
      split at hc
      · exact absurd hc (by simp)
      · next a _ =>
          split at hc
          · next hf =>
              obtain ⟨rfl, rfl⟩ : _ = s' ∧ _ = ret := by simpa using hc
              exact talRealloc_moveToMalloc h hperm heq hown hsize hf
          · exact absurd hc (by simp)
  · next hw =>
      rw [hw] at hspec
      split at hc
      · next hzero =>
          obtain ⟨rfl, rfl⟩ : _ = s' ∧ _ = ret := by simpa using hc
          subst hzero
          exact talRealloc_drop h hperm hspec.1
      · next hzero =>
          split at hc
          · exact absurd hc (by simp)
          · next a _ =>
              split at hc
              · next hf =>
                  obtain ⟨rfl, rfl⟩ : _ = s' ∧ _ = ret := by simpa using hc
                  exact talRealloc_tccRealloc h hperm hspec.1 (by omega) hf
              · exact absurd hc (by simp)
  · exact absurd hc (by simp)

/-- The free end of an empty pool may go back to its start. -/
theorem Inv.reset {mem : Memory} {live : List Block} (h : Inv kind mem (pre ++ al :: post) live)
    (hz : al.nbAllocs = 0) :
    Inv kind mem (pre ++ { al with p := al.buffer } :: post) live := by
  have hok := h.poolsOk.ok al mem_split
  have hempty := h.counted al mem_split
  rw [hz] at hempty
  have hpool : PoolOk kind { al with p := al.buffer } :=
    ⟨hok.limit, hok.size_dvd, hok.size_lt, hok.buffer_pos, le_refl _, Or.inl rfl⟩
  refine ⟨h.poolsOk.replace hpool rfl rfl, fun b hb => ?_, h.apart, ?_⟩
  · refine (h.blocksOk b hb).replace rfl rfl fun hlo hhi => ?_
    have hown := BlockOk.owns h.poolsOk mem_split hlo hhi
    exact absurd (decide_eq_true hown) (List.countP_eq_zero.mp hempty.symm b hb)
  · exact forall_replace (P := fun x => x.nbAllocs = live.countP fun b => x.Owns b.addr) h.counted
      (hz.trans hempty)

/-- **Release keeps the invariant**, and moves a free end back only in a pool that is empty. -/
theorem talFree_ok (h : Inv kind s.mem s.pools s.live) (hv : (Call.free p).Valid s) :
    Inv kind (talFree s p).mem (talFree s p).pools (talFree s p).live ∧
      ∀ al ∈ s.pools, ∃ al' ∈ (talFree s p).pools, al'.buffer = al.buffer ∧ al'.size = al.size ∧
        (al.p ≤ al'.p ∨ al'.p = al.buffer ∧ al'.nbAllocs = 0) := by
  by_cases hp : p = 0
  · rw [talFree, if_pos hp]
    exact ⟨h, fun al hal => ⟨al, hal, rfl, rfl, Or.inl (le_refl _)⟩⟩
  obtain ⟨b, hb, rfl, hperm⟩ := perm_eraseP (hv.resolve_left hp)
  rw [talFree, if_neg hp]
  have hinv := h.perm hperm
  rcases freeWalk_spec b.addr s.pools with ⟨pre, al, post, heq, hown, hwalk⟩ | ⟨hnone, hwalk⟩
  · dsimp only
    rw [hwalk, heq]
    rw [heq] at hinv
    have huncount := hinv.uncount hown
    split
    · next hz =>
        refine ⟨huncount.reset hz, fun x hx => ?_⟩
        rcases List.mem_append.mp hx with hx | hx
        · exact ⟨x, List.mem_append_left _ hx, rfl, rfl, Or.inl (le_refl _)⟩
        · rcases List.mem_cons.mp hx with rfl | hx
          · exact ⟨_, mem_split, rfl, rfl, Or.inr ⟨rfl, hz⟩⟩
          · exact ⟨x, List.mem_append_right _ (List.mem_cons_of_mem _ hx), rfl, rfl,
              Or.inl (le_refl _)⟩
    · have hgrows : Grows (pre ++ al :: post) (pre ++ al.uncount :: post) :=
        grows_replace rfl rfl (le_refl _)
      refine ⟨huncount, fun x hx => ?_⟩
      obtain ⟨y, hy, hyb, hys, hyp⟩ := hgrows x hx
      exact ⟨y, hy, hyb, hys, Or.inl hyp⟩
  · dsimp only
    rw [hwalk]
    exact ⟨hinv.drop hnone, fun al hal => ⟨al, hal, rfl, rfl, Or.inl (le_refl _)⟩⟩

/-- A client writes to its own blocks, never to a header. -/
theorem write_ok (h : Inv kind s.mem s.pools s.live) {a : Nat} {v : BitVec 8}
    (hv : (Call.write a v).Valid s) : Inv kind (Function.update s.mem a v) s.pools s.live := by
  obtain ⟨b, hb, hlo, hhi⟩ := hv
  have hrange := (h.blocksOk b hb).range
  apply h.congr_mem
  intro c hc hp a' ha' ha''
  apply Function.update_of_ne
  have hheader := (h.blocksOk c hc).header hp
  by_cases hbc : b = c
  · subst hbc
    omega
  · have hap : b.hi ≤ c.lo ∨ c.hi ≤ b.lo := h.apart.forall hb hc hbc
    omega

theorem exec_ok {c : Call} (h : Inv kind s.mem s.pools s.live) (hv : c.Valid s)
    (hfits : ¬Overruns s c) (hc : exec s addrs c = some (s', ret)) :
    Inv kind s'.mem s'.pools s'.live ∧ StepSafe s c s' ret := by
  cases c with
  | realloc p size =>
      have hok := talRealloc_ok h hv hfits hc
      refine ⟨hok.inv, ?_, fun al hal => ?_⟩
      · intro p' size' heq
        obtain ⟨rfl, rfl⟩ := Call.realloc.inj heq
        exact hok.keeps
      · obtain ⟨al', hal', hb, hs, hp⟩ := hok.grows al hal
        exact ⟨al', hal', hb, hs, Or.inl hp⟩
  | free p =>
      obtain ⟨rfl, rfl⟩ : talFree s p = s' ∧ 0 = ret := by simpa [exec] using hc
      obtain ⟨hinv, hreset⟩ := talFree_ok h hv
      refine ⟨hinv, fun _ _ heq => absurd heq (by simp), fun al hal => ?_⟩
      obtain ⟨al', hal', hb, hs, hp⟩ := hreset al hal
      refine ⟨al', hal', hb, hs, hp.imp id fun hz => ⟨hz.1, ?_⟩⟩
      rw [← hinv.counted al' hal']
      exact hz.2
  | write a v =>
      obtain ⟨rfl, rfl⟩ : { s with mem := Function.update s.mem a v } = s' ∧ 0 = ret := by
        simpa [exec] using hc
      refine ⟨write_ok h hv, fun _ _ heq => absurd heq (by simp), fun al hal => ?_⟩
      exact ⟨al, hal, rfl, rfl, Or.inl (le_refl _)⟩

end Calls

/-! ## Runs -/

section Runs

variable {kind : Kind} {s : State}

theorem inv_init (mem : Memory) {a : Nat} (ha : 0 < a) :
    Inv kind mem [talNew a kind.limit kind.size] [] := by
  have hsize : 2 ^ 18 ∣ kind.size ∧ kind.size < 2 ^ 32 := by cases kind <;> decide
  have hpool : PoolOk kind (talNew a kind.limit kind.size) :=
    ⟨rfl, hsize.1, hsize.2, ha, le_refl a, Or.inl rfl⟩
  exact ⟨⟨List.cons_ne_nil _ _, List.forall_mem_singleton.mpr hpool, List.pairwise_singleton _ _⟩,
    fun b hb => absurd hb (by simp), List.Pairwise.nil, List.forall_mem_singleton.mpr rfl⟩

theorem Reachable.inv (h : Reachable (fun s c => ¬Overruns s c) kind s) :
    Inv kind s.mem s.pools s.live := by
  induction h with
  | init mem ha => exact inv_init mem ha
  | step hs hv hok hc ih => exact (exec_ok ih hv hok hc).1

end Runs

/-! ## A copy that runs past its pool

A pool at 16 is filled up to its last 44 bytes; the next one lies 16 bytes after its end. A block of
256 bytes that shrinks to 4 goes into these last bytes, and the copy of 256 bytes clears the header
in the next pool. -/

section Overrun

end Overrun

end TccRiscv64.Alloc
