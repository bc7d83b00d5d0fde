import TccRiscv64.Scope.Scopes

set_option autoImplicit false

/-! # Links between declarations

What the links from each symbol to the one that it hides have to be, so that following the link of
the oldest symbol above a mark leads to what a name stood for at that mark. -/

namespace TccRiscv64.Scope

variable {prev prev' : SymId → Option SymId} {g g' : Key → Option SymId} {k : Key}
  {pre mid suf entries : List Entry}

/-! ## Lookup among entries -/

theorem look_append_of_forall_ne (h : ∀ e ∈ pre, e.key ≠ some k) :
    look g k (pre ++ suf) = look g k suf := by
  induction pre with
  | nil => rfl
  | cons e pre ih =>
    have he : ¬(e.live = true ∧ e.key = some k) := fun he => h e List.mem_cons_self he.2
    rw [List.cons_append, look, if_neg he, ih fun e' he' => h e' (List.mem_cons_of_mem _ he')]

theorem look_append_of_forall_dead (h : ∀ e ∈ pre, e.live = false) :
    look g k (pre ++ suf) = look g k suf := by
  induction pre with
  | nil => rfl
  | cons e pre ih =>
    have he : ¬(e.live = true ∧ e.key = some k) := by
      rw [h e List.mem_cons_self]
      simp
    rw [List.cons_append, look, if_neg he, ih fun e' he' => h e' (List.mem_cons_of_mem _ he')]

theorem look_congr (h : g k = g' k) : look g k entries = look g' k entries := by
  induction entries with
  | nil => exact h
  | cons e rest ih => rw [look, look, ih]

/-- The oldest entry of a name, live or not. -/
def oldest (k : Key) : List Entry → Option Entry
  | [] => none
  | e :: rest => (oldest k rest).or (if e.key = some k then some e else none)

theorem oldest_eq_none_iff : oldest k entries = none ↔ ∀ e ∈ entries, e.key ≠ some k := by
  induction entries with
  | nil => simp [oldest]
  | cons e rest ih =>
    rw [oldest, Option.or_eq_none_iff, ih, List.forall_mem_cons, and_comm]
    simp only [ite_eq_right_iff, reduceCtorEq, imp_false, ne_eq]

theorem oldest_mem {e : Entry} (h : oldest k entries = some e) : e ∈ entries ∧ e.key = some k := by
  induction entries with
  | nil => cases h
  | cons e' rest ih =>
    rw [oldest, Option.or_eq_some_iff] at h
    rcases h with h | ⟨-, h⟩
    · exact ⟨List.mem_cons_of_mem _ (ih h).1, (ih h).2⟩
    · split at h
      · next hk =>
        cases h
        exact ⟨List.mem_cons_self, hk⟩
      · cases h

theorem oldest_append : oldest k (pre ++ suf) = (oldest k suf).or (oldest k pre) := by
  induction pre with
  | nil => simp [oldest]
  | cons e pre ih => rw [List.cons_append, oldest, oldest, ih, Option.or_assoc]

theorem oldest_map_kill : oldest k (entries.map Entry.kill) = (oldest k entries).map Entry.kill := by
  induction entries with
  | nil => rfl
  | cons e rest ih =>
    rw [List.map_cons, oldest, oldest, ih, Option.map_or]
    congr 1
    by_cases he : e.key = some k <;> simp [Entry.kill, he]

/-! ## Restoring a lookup -/

/-- The links of the oldest symbols of `pre` lead to what names stand for in `suf`. -/
def Restores (prev : SymId → Option SymId) (g : Key → Option SymId) (pre suf : List Entry) : Prop :=
  ∀ k e, oldest k pre = some e → prev e.id = look g k suf

theorem restores_nil : Restores prev g [] suf := by
  intro k e h
  cases h

theorem Restores.append (h : Restores prev g pre (mid ++ suf)) (h' : Restores prev g mid suf) :
    Restores prev g (pre ++ mid) suf := by
  intro k e he
  rw [oldest_append, Option.or_eq_some_iff] at he
  rcases he with he | ⟨hnone, he⟩
  · exact h' k e he
  · rw [h k e he, look_append_of_forall_ne (oldest_eq_none_iff.1 hnone)]

theorem Restores.kill (h : Restores prev g pre suf) : Restores prev g (pre.map Entry.kill) suf := by
  intro k e he
  rw [oldest_map_kill] at he
  obtain ⟨e', he', rfl⟩ := Option.map_eq_some_iff.1 he
  exact h k e' he'

theorem Restores.congr (h : Restores prev g pre suf) (hprev : ∀ e ∈ pre, prev' e.id = prev e.id) :
    Restores prev' g pre suf := by
  intro k e he
  rw [hprev e (oldest_mem he).1, h k e he]

/-- The stack marks of the open scopes, and the links above each of them. -/
def MarksOk (prev : SymId → Option SymId) (g : Key → Option SymId) (base : List SymId) :
    List Entry → List (Option SymId) → List Nat → Prop
  | entries, [], [] => Restores prev g entries []
  | entries, b :: bs, m :: ms =>
    ∃ pre suf, entries = pre ++ suf ∧ suf.length = m ∧ b = (suf.map Entry.id ++ base).head? ∧
      Restores prev g pre suf ∧ MarksOk prev g base suf bs ms
  | _, _, _ => False

section MarksOk

variable {base : List SymId} {bs : List (Option SymId)} {ms : List Nat}

/-- Entries on top whose links are right do not disturb the marks. -/
theorem MarksOk.append (h : MarksOk prev g base entries bs ms) (hpre : Restores prev g pre entries) :
    MarksOk prev g base (pre ++ entries) bs ms := by
  match bs, ms, h with
  | [], [], h =>
    refine Restores.append ?_ h
    rwa [List.append_nil]
  | b :: bs, m :: ms, ⟨pre', suf, heq, hlen, hb, hrestores, hrest⟩ =>
    refine ⟨pre ++ pre', suf, by rw [heq, List.append_assoc], hlen, hb, ?_, hrest⟩
    rw [heq] at hpre
    exact hpre.append hrestores

theorem MarksOk.congr (h : MarksOk prev g base entries bs ms)
    (hprev : ∀ e ∈ entries, prev' e.id = prev e.id) : MarksOk prev' g base entries bs ms := by
  induction bs generalizing entries ms with
  | nil =>
    cases ms with
    | nil => exact Restores.congr h hprev
    | cons m ms => exact h.elim
  | cons b bs ih =>
    cases ms with
    | nil => exact h.elim
    | cons m ms =>
      obtain ⟨pre, suf, rfl, hlen, hb, hrestores, hrest⟩ := h
      refine ⟨pre, suf, rfl, hlen, hb, ?_, ih hrest fun e he => ?_⟩
      · exact hrestores.congr fun e he => hprev e (List.mem_append_left _ he)
      · exact hprev e (List.mem_append_right _ he)

end MarksOk

/-! ## Links of live symbols -/

/-- The link of each live symbol leads to what its name stands for behind it. -/
def Linked (prev : SymId → Option SymId) (g : Key → Option SymId) : List Entry → Prop
  | [] => True
  | e :: rest =>
    (∀ k, e.live → e.key = some k → prev e.id = look g k rest) ∧ Linked prev g rest

theorem Linked.congr (h : Linked prev g entries) (hprev : ∀ e ∈ entries, prev' e.id = prev e.id) :
    Linked prev' g entries := by
  induction entries with
  | nil => trivial
  | cons e rest ih =>
    refine ⟨fun k hlive hk => ?_, ih h.2 fun e' he' => hprev e' (List.mem_cons_of_mem _ he')⟩
    rw [hprev e List.mem_cons_self, h.1 k hlive hk]

theorem Linked.of_append (h : Linked prev g (pre ++ suf)) : Linked prev g suf := by
  induction pre with
  | nil => exact h
  | cons e pre ih => exact ih h.2

theorem Linked.dead_append (h : Linked prev g suf) (hpre : ∀ e ∈ pre, e.live = false) :
    Linked prev g (pre ++ suf) := by
  induction pre with
  | nil => exact h
  | cons e pre ih =>
    refine ⟨fun k hlive => ?_, ih fun e' he' => hpre e' (List.mem_cons_of_mem _ he')⟩
    rw [hpre e List.mem_cons_self] at hlive
    cases hlive

/-! ## A global symbol behind the entries -/

/-- The last live entry of a name that is found on the way. -/
def lastLive (k : Key) : List Entry → Option SymId
  | [] => none
  | e :: rest => (lastLive k rest).or (if e.live ∧ e.key = some k then some e.id else none)

/-- If the oldest entry of a name is live, it is the last live one. -/
theorem lastLive_eq (h : ∀ e, oldest k entries = some e → e.live) :
    lastLive k entries = (oldest k entries).map Entry.id := by
  induction entries with
  | nil => rfl
  | cons e rest ih =>
    rw [oldest] at h ⊢
    rw [lastLive]
    cases hrest : oldest k rest with
    | some e' =>
      rw [hrest] at h ih
      rw [ih fun e'' he'' => h e'' (by rw [he'']; rfl)]
      rfl
    | none =>
      rw [hrest] at h ih
      rw [ih fun e'' he'' => by cases he'']
      by_cases hk : e.key = some k
      · have hlive : e.live := h e (by rw [if_pos hk]; rfl)
        rw [if_pos hk, if_pos ⟨hlive, hk⟩]
        rfl
      · rw [if_neg hk, if_neg fun h' => hk h'.2]
        rfl

/-- The links and the global names after a global symbol `s` is linked behind `place`. -/
structure Behind (prev prev' : SymId → Option SymId) (g g' : Key → Option SymId) (k : Key)
    (place : Option SymId) (s : SymId) : Prop where
  same_name : g' k = some s
  other_name : ∀ k', k' ≠ k → g' k' = g k'
  same_link : ∀ p, place = some p → prev' p = some s
  other_link : ∀ p, place ≠ some p → p ≠ s → prev' p = prev p

section Behind

variable {place : Option SymId} {s : SymId}

theorem look_of_lastLive_ne_none {entries : List Entry} (h : lastLive k entries ≠ none) :
    look g k entries = look g' k entries := by
  induction entries with
  | nil => exact absurd rfl h
  | cons e rest ih =>
    rw [look, look]
    by_cases he : e.live = true ∧ e.key = some k
    · rw [if_pos he, if_pos he]
    · rw [if_neg he, if_neg he]
      refine ih fun hnone => h ?_
      rw [lastLive, hnone, if_neg he]
      rfl

theorem look_of_lastLive_eq_none {entries : List Entry} (h : lastLive k entries = none) :
    look g k entries = g k := by
  induction entries with
  | nil => rfl
  | cons e rest ih =>
    rw [lastLive, Option.or_eq_none_iff] at h
    rw [look, if_neg, ih h.1]
    intro he
    rw [if_pos he] at h
    cases h.2

theorem lastLive_mem {entries : List Entry} {p : SymId} (h : lastLive k entries = some p) :
    ∃ e ∈ entries, e.id = p ∧ e.live = true ∧ e.key = some k := by
  induction entries with
  | nil => cases h
  | cons e rest ih =>
    rw [lastLive, Option.or_eq_some_iff] at h
    rcases h with h | ⟨-, h⟩
    · obtain ⟨e', he', hp⟩ := ih h
      exact ⟨e', List.mem_cons_of_mem _ he', hp⟩
    · split at h
      · next hk =>
        cases h
        exact ⟨e, List.mem_cons_self, rfl, hk⟩
      · cases h

theorem lastLive_append : lastLive k (pre ++ suf) = (lastLive k suf).or (lastLive k pre) := by
  induction pre with
  | nil => simp [lastLive]
  | cons e pre ih => rw [List.cons_append, lastLive, lastLive, ih, Option.or_assoc]

/-- Two entries at the same address are the same one. -/
theorem eq_of_id_eq {e e' : Entry} (hnodup : (entries.map Entry.id).Nodup) (he : e ∈ entries)
    (he' : e' ∈ entries) (h : e.id = e'.id) : e = e' :=
  List.inj_on_of_nodup_map hnodup he he' h

variable {whole top : List Entry}

theorem Restores.behind (hbehind : Behind prev prev' g g' k (lastLive k whole) s)
    (hwhole : whole = top ++ (pre ++ suf)) (hnodup : (whole.map Entry.id).Nodup)
    (hs : s ∉ whole.map Entry.id) (hlive : ∀ e, oldest k whole = some e → e.live)
    (h : Restores prev g pre suf) : Restores prev' g' pre suf := by
  intro k' e he
  obtain ⟨hmem, hkey⟩ := oldest_mem he
  have hwhole_mem : e ∈ whole := by
    rw [hwhole]
    exact List.mem_append_right _ (List.mem_append_left _ hmem)
  have hes : e.id ≠ s := fun h' => hs (h' ▸ List.mem_map_of_mem hwhole_mem)
  by_cases hk : k' = k
  · subst hk
    have hold : oldest k' whole = (oldest k' suf).or (some e) := by
      rw [hwhole, oldest_append, oldest_append, he]
      cases oldest k' suf <;> rfl
    by_cases hnone : lastLive k' suf = none
    · have hsuf : oldest k' suf = none := by
        cases hsome : oldest k' suf with
        | none => rfl
        | some e' =>
          have hlast : lastLive k' suf = (oldest k' suf).map Entry.id :=
            lastLive_eq fun e'' he'' => hlive e'' (by rw [hold, he'']; rfl)
          rw [hnone, hsome] at hlast
          cases hlast
      have hplace : lastLive k' whole = some e.id := by
        rw [lastLive_eq hlive, hold, hsuf]
        rfl
      rw [hbehind.same_link e.id hplace, look_of_lastLive_eq_none hnone, hbehind.same_name]
    · obtain ⟨p, hp⟩ := Option.ne_none_iff_exists'.1 hnone
      have hplace : lastLive k' whole = some p := by
        rw [hwhole, lastLive_append, lastLive_append, hp]
        rfl
      obtain ⟨e', he', hid, -⟩ := lastLive_mem hp
      have hne : lastLive k' whole ≠ some e.id := by
        rw [hplace]
        rintro ⟨⟩
        rw [hwhole, List.map_append, List.map_append] at hnodup
        have hdis := List.disjoint_of_nodup_append (List.nodup_append.1 hnodup).2.1
        exact hdis (List.mem_map_of_mem hmem) (hid ▸ List.mem_map_of_mem he')
      rw [hbehind.other_link e.id hne hes, h k' e he, look_of_lastLive_ne_none hnone]
  · have hne : lastLive k whole ≠ some e.id := by
      intro hplace
      obtain ⟨e', he', hid, -, hkey'⟩ := lastLive_mem hplace
      rw [eq_of_id_eq hnodup he' hwhole_mem hid, hkey] at hkey'
      exact hk (Option.some.inj hkey')
    rw [hbehind.other_link e.id hne hes, h k' e he, look_congr (hbehind.other_name k' hk).symm]

theorem MarksOk.behind {base : List SymId} {bs : List (Option SymId)} {ms : List Nat}
    (hbehind : Behind prev prev' g g' k (lastLive k whole) s)
    (hwhole : whole = top ++ entries) (hnodup : (whole.map Entry.id).Nodup)
    (hs : s ∉ whole.map Entry.id) (hlive : ∀ e, oldest k whole = some e → e.live)
    (h : MarksOk prev g base entries bs ms) : MarksOk prev' g' base entries bs ms := by
  induction bs generalizing entries ms top with
  | nil =>
    cases ms with
    | nil =>
      have htop : whole = top ++ (entries ++ []) := by rw [hwhole, List.append_nil]
      exact Restores.behind hbehind htop hnodup hs hlive h
    | cons m ms => exact h.elim
  | cons b bs ih =>
    cases ms with
    | nil => exact h.elim
    | cons m ms =>
      obtain ⟨pre, suf, rfl, hlen, hb, hrestores, hrest⟩ := h
      refine ⟨pre, suf, rfl, hlen, hb, hrestores.behind hbehind hwhole hnodup hs hlive, ?_⟩
      have htop : whole = top ++ pre ++ suf := by rw [hwhole, List.append_assoc]
      exact ih htop hrest

theorem Linked.behind (hbehind : Behind prev prev' g g' k (lastLive k whole) s)
    (hwhole : whole = top ++ entries) (hnodup : (whole.map Entry.id).Nodup)
    (hs : s ∉ whole.map Entry.id) (h : Linked prev g entries) : Linked prev' g' entries := by
  induction entries generalizing top with
  | nil => trivial
  | cons e rest ih =>
    have htop : whole = top ++ [e] ++ rest := by simp [hwhole]
    refine ⟨fun k' hlive hkey => ?_, ih htop h.2⟩
    have hmem : e ∈ whole := by
      rw [hwhole]
      exact List.mem_append_right _ List.mem_cons_self
    have hes : e.id ≠ s := fun h' => hs (h' ▸ List.mem_map_of_mem hmem)
    by_cases hk : k' = k
    · subst hk
      by_cases hnone : lastLive k' rest = none
      · have hplace : lastLive k' whole = some e.id := by
          rw [hwhole, lastLive_append, lastLive, hnone, if_pos ⟨hlive, hkey⟩]
          rfl
        rw [hbehind.same_link e.id hplace, look_of_lastLive_eq_none hnone, hbehind.same_name]
      · obtain ⟨p, hp⟩ := Option.ne_none_iff_exists'.1 hnone
        have hplace : lastLive k' whole = some p := by
          rw [hwhole, lastLive_append, lastLive, hp]
          rfl
        obtain ⟨e', he', hid, -⟩ := lastLive_mem hp
        have hne : lastLive k' whole ≠ some e.id := by
          rw [hplace]
          rintro ⟨⟩
          rw [hwhole, List.map_append, List.map_cons] at hnodup
          have hdis := (List.nodup_cons.1 (List.nodup_append.1 hnodup).2.1).1
          exact hdis (hid ▸ List.mem_map_of_mem he')
        rw [hbehind.other_link e.id hne hes, h.1 k' hlive hkey, look_of_lastLive_ne_none hnone]
    · have hne : lastLive k whole ≠ some e.id := by
        intro hplace
        obtain ⟨e', he', hid, -, hkey'⟩ := lastLive_mem hplace
        rw [eq_of_id_eq hnodup he' hmem hid, hkey] at hkey'
        exact hk (Option.some.inj hkey')
      rw [hbehind.other_link e.id hne hes, h.1 k' hlive hkey,
        look_congr (hbehind.other_name k' hk).symm]

end Behind

end TccRiscv64.Scope
