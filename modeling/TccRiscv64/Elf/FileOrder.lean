import TccRiscv64.Elf.FileLayout

set_option autoImplicit false

/-! # The order of the sections

Every section is there once, those that are loaded before the others, and the flags of a segment
are those of its sections. -/

namespace TccRiscv64.Elf.File

variable {special : Special} {secs : List Section}

/-! ## Sorting -/

theorem rdropWhile_append_rtakeWhile {α : Type} (p : α → Bool) (l : List α) :
    l.rdropWhile p ++ l.rtakeWhile p = l := by
  unfold List.rdropWhile List.rtakeWhile
  rw [← List.reverse_append, List.takeWhile_append_dropWhile, List.reverse_reverse]

theorem insertClass_perm (new : Classed) (order : List Classed) :
    (insertClass new order).Perm (new :: order) := by
  conv_rhs => rw [← rdropWhile_append_rtakeWhile (fun c => new.cls < c.cls) order]
  exact List.perm_middle

/-- The classes go up. -/
def Sorted (order : List Classed) : Prop := order.Pairwise fun c c' => c.cls ≤ c'.cls

theorem Sorted.insertClass {order : List Classed} (h : Sorted order) (new : Classed) :
    Sorted (insertClass new order) := by
  have hsplit := rdropWhile_append_rtakeWhile (fun c => decide (new.cls < c.cls)) order
  unfold Sorted at h ⊢
  rw [← hsplit, List.pairwise_append] at h
  obtain ⟨hdrop, htake, hcross⟩ := h
  have hnew : ∀ c ∈ order.rtakeWhile (fun c => new.cls < c.cls), new.cls < c.cls :=
    fun c hc => by simpa using List.mem_rtakeWhile_imp hc
  have hold : ∀ c ∈ order.rdropWhile (fun c => new.cls < c.cls), c.cls ≤ new.cls := by
    intro c hc
    have hne : order.rdropWhile (fun c => decide (new.cls < c.cls)) ≠ [] :=
      List.ne_nil_of_mem hc
    have hlast := List.rdropWhile_last_not (fun c => decide (new.cls < c.cls)) order hne
    rw [← List.dropLast_append_getLast hne] at hc hdrop
    have hle : (List.getLast _ hne).cls ≤ new.cls := by simpa using hlast
    rcases List.mem_append.mp hc with hc | hc
    · exact ((List.pairwise_append.mp hdrop).2.2 c hc _ (List.mem_singleton.mpr rfl)).trans hle
    · rw [List.mem_singleton.mp hc]
      exact hle
  refine List.pairwise_append.mpr ⟨hdrop, List.Pairwise.cons ?_ htake, fun c hc c' hc' => ?_⟩
  · exact fun c hc => (hnew c hc).le
  · rcases List.mem_cons.mp hc' with rfl | hc'
    · exact hold c hc
    · exact hcross c hc c' hc'

/-- The sections with their classes, before they are sorted. -/
def classes (special : Special) (secs : List Section) : List Classed :=
  (secs.zipIdx 1).map fun p => ⟨p.2, p.1, sectionClass special secs.length p.2 p.1⟩

theorem sortClasses_spec (special : Special) (secs : List Section) :
    (sortClasses special secs).Perm (classes special secs) ∧ Sorted (sortClasses special secs) := by
  have hfold : ∀ (l : List (Section × Nat)) (order : List Classed), Sorted order →
      Sorted (l.foldl (fun order p =>
        insertClass ⟨p.2, p.1, sectionClass special secs.length p.2 p.1⟩ order) order) ∧
      (l.foldl (fun order p =>
        insertClass ⟨p.2, p.1, sectionClass special secs.length p.2 p.1⟩ order) order).Perm
        ((l.map fun p => ⟨p.2, p.1, sectionClass special secs.length p.2 p.1⟩) ++ order) := by
    intro l
    induction l with
    | nil => exact fun order h => ⟨h, List.Perm.refl _⟩
    | cons p l ih =>
        intro order h
        obtain ⟨hsorted, hperm⟩ := ih _ (h.insertClass _)
        refine ⟨hsorted, hperm.trans ?_⟩
        exact ((insertClass_perm _ order).append_left _).trans List.perm_middle
  obtain ⟨hsorted, hperm⟩ := hfold (secs.zipIdx 1) [] List.Pairwise.nil
  rw [List.append_nil] at hperm
  exact ⟨hperm, hsorted⟩

/-! ## Classes and flags -/

def Section.isAlloc (s : Section) : Bool := s.shFlags &&& shfAlloc != 0

theorem ite_le {p : Prop} [Decidable p] {a b n : Nat} (ha : a ≤ n) (hb : b ≤ n) :
    (if p then a else b) ≤ n := by
  split
  · exact ha
  · exact hb

theorem classKind_le (special : Special) (last i : Nat) (s : Section) :
    classKind special last i s ≤ 0xff := by
  unfold classKind
  repeat' apply ite_le
  all_goals decide

theorem sectionClass_lt_iff (special : Special) (last i : Nat) (s : Section) :
    sectionClass special last i s < 0x700 ↔ s.isAlloc = true := by
  have hkind := classKind_le special last i s
  unfold sectionClass classGroup Section.isAlloc
  by_cases halloc : s.shFlags &&& shfAlloc = 0
  · rw [if_neg (not_not.mpr halloc), halloc]
    constructor
    · intro hlt
      split at hlt <;> omega
    · intro h
      exact absurd h (by decide)
  · rw [if_pos halloc]
    refine ⟨fun _ => by simpa using halloc, fun _ => ?_⟩
    split <;> split <;> omega

/-- The class of a section says whether it is loaded. -/
def Classed.Ok (c : Classed) : Prop := c.cls < 0x700 ↔ c.sec.isAlloc = true

theorem ok_of_mem_sortClasses {c : Classed} (h : c ∈ sortClasses special secs) : c.Ok := by
  have hmem := (sortClasses_spec special secs).1.mem_iff.mp h
  obtain ⟨p, -, rfl⟩ := List.mem_map.mp hmem
  exact sectionClass_lt_iff special _ _ _

section Flags

variable {c : Classed}

/-- The flags that a segment is made by. -/
def rwxt : BitVec 32 := shfAlloc ||| shfWrite ||| shfExecinstr ||| shfTls

theorem segmentFlags_and {d : BitVec 32} (h : c.cls < 0x700) (hd : rwxt &&& d = d)
    (hr : relroFlag &&& d = 0) : segmentFlags c &&& d = c.sec.shFlags &&& d := by
  have hmask : (c.sec.shFlags &&& rwxt) &&& d = c.sec.shFlags &&& d := by
    rw [BitVec.and_assoc, hd]
  unfold segmentFlags
  rw [if_pos h]
  dsimp only
  split
  · rw [BitVec.and_or_distrib_right, hr]
    exact BitVec.or_zero.trans hmask
  · exact hmask

theorem marked_newHeader (f : BitVec 32) : (f ||| newHeader) &&& newHeader ≠ 0 := by
  rw [BitVec.and_or_distrib_right, BitVec.and_self]
  intro h
  have hbit := congrArg (fun x : BitVec 32 => x.getLsbD 8) h
  simp [newHeader] at hbit

theorem marked_and {f d : BitVec 32} (hd : newHeader &&& d = 0) :
    (f ||| newHeader) &&& d = f &&& d := by
  rw [BitVec.and_or_distrib_right, hd]
  exact BitVec.or_zero

theorem segmentFlags_ne_zero (h : c.cls < 0x700) (hok : c.Ok) : segmentFlags c ≠ 0 := by
  intro hzero
  have hand := segmentFlags_and (c := c) (d := shfAlloc) h (by decide) (by decide)
  rw [hzero] at hand
  have halloc := hok.mp h
  unfold Section.isAlloc at halloc
  rw [← hand] at halloc
  revert halloc
  decide

end Flags

/-! ## The slots -/

/-- The flags of a slot are those of its section. -/
def Slot.Ok (slot : Slot) : Prop :=
  (slot.sec.isAlloc = false → slot.f = 0) ∧
    (slot.sec.isAlloc = true → slot.f ≠ 0 ∧
      ∀ d ∈ [shfTls, shfWrite, shfExecinstr], slot.f &&& d = slot.sec.shFlags &&& d)

theorem ok_of_mem_markHeaders {f0 : BitVec 32} {order : List Classed} (hok : ∀ c ∈ order, c.Ok)
    {slot : Slot} (h : slot ∈ markHeaders f0 order) : slot.Ok := by
  induction order generalizing f0 with
  | nil => exact absurd h List.not_mem_nil
  | cons c order ih =>
      have hc := hok c List.mem_cons_self
      have hok' : ∀ c ∈ order, c.Ok := fun c' hc' => hok c' (List.mem_cons_of_mem c hc')
      have hd : ∀ d ∈ [shfTls, shfWrite, shfExecinstr],
          rwxt &&& d = d ∧ relroFlag &&& d = 0 ∧ newHeader &&& d = 0 := by
        intro d hd
        rcases List.mem_cons.mp hd with rfl | hd
        · decide
        rcases List.mem_cons.mp hd with rfl | hd
        · decide
        rw [List.mem_singleton.mp hd]
        decide
      unfold markHeaders at h
      dsimp only at h
      split at h
      · rename_i hmark
        rcases List.mem_cons.mp h with rfl | h
        · refine ⟨fun hno => absurd (hc.mp hmark.1) (by rw [hno]; decide), fun _ => ⟨?_, ?_⟩⟩
          · intro hz
            have hz : segmentFlags c ||| newHeader = 0 := hz
            exact marked_newHeader (segmentFlags c) (by rw [hz]; decide)
          · intro d hmem
            obtain ⟨h1, h2, h3⟩ := hd d hmem
            exact (marked_and h3).trans (segmentFlags_and hmark.1 h1 h2)
        · exact ih hok' h
      · rcases List.mem_cons.mp h with rfl | h
        · refine ⟨fun hno => if_neg fun hlt => absurd (hc.mp hlt) (by rw [hno]; decide),
            fun halloc => ⟨segmentFlags_ne_zero (hc.mpr halloc) hc, fun d hmem => ?_⟩⟩
          obtain ⟨h1, h2, -⟩ := hd d hmem
          exact segmentFlags_and (hc.mpr halloc) h1 h2
        · exact ih hok' h

theorem markHeaders_sec (f0 : BitVec 32) (order : List Classed) :
    (markHeaders f0 order).map Slot.sec = order.map Classed.sec := by
  induction order generalizing f0 with
  | nil => rfl
  | cons c order ih =>
      unfold markHeaders
      dsimp only
      split
      · exact congrArg (_ :: ·) (ih _)
      · exact congrArg (_ :: ·) (ih _)

/-- Every section has a slot. -/
theorem sortSections_perm (special : Special) (secs : List Section) :
    ((sortSections special secs).map Slot.sec).Perm secs := by
  have hperm := (sortClasses_spec special secs).1.map Classed.sec
  have hclasses : (classes special secs).map Classed.sec = secs := by
    unfold classes
    rw [List.map_map]
    exact List.zipIdx_map_fst 1 secs
  unfold sortSections
  rw [markHeaders_sec]
  rwa [hclasses] at hperm

theorem sortSections_ok {slot : Slot} (h : slot ∈ sortSections special secs) : slot.Ok :=
  ok_of_mem_markHeaders (fun _ hc => ok_of_mem_sortClasses hc) h

end TccRiscv64.Elf.File
