import Mathlib.Data.List.Nodup

/-! A list to which a thing is added at the end, unless one with its key is there. -/
namespace Atrace.Lib.Registry

variable {α β κ : Type*} [DecidableEq κ] {key : β → κ} {make : α → Option β} {objs objs' : List β}
  {a : α} {as : List α}

/-- Add what is made of `a`, if anything is made of it and its key is not taken. -/
def register (key : β → κ) (make : α → Option β) (objs : List β) (a : α) : List β :=
  match make a with
  | none => objs
  | some b => if key b ∈ objs.map key then objs else objs ++ [b]

theorem register_none (h : make a = none) : register key make objs a = objs := by
  rw [register, h]

theorem register_some {b : β} (h : make a = some b) : register key make objs a =
    if key b ∈ objs.map key then objs else objs ++ [b] := by
  rw [register, h]

/-- Whatever is made of `a` has a key that is taken. -/
def Covers (key : β → κ) (make : α → Option β) (objs : List β) (a : α) : Prop :=
  ∀ b, make a = some b → key b ∈ objs.map key

theorem register_of_covers (h : Covers key make objs a) : register key make objs a = objs := by
  rw [register]
  split
  · rfl
  · rename_i b hb
    exact if_pos (h b hb)

theorem covers_register : Covers key make (register key make objs a) a := by
  intro b hb
  simp only [register, hb]
  split
  · rename_i hkey
    exact hkey
  · simp

theorem prefix_register : objs <+: register key make objs a := by
  rw [register]
  split
  · exact List.prefix_refl objs
  · split
    · exact List.prefix_refl objs
    · exact List.prefix_append objs _

theorem nodup_register (h : (objs.map key).Nodup) : ((register key make objs a).map key).Nodup := by
  rw [register]
  split
  · exact h
  · split
    · exact h
    · rename_i b _ hkey
      rw [List.map_append, List.nodup_append]
      refine ⟨h, List.nodup_singleton _, ?_⟩
      rintro k hk _ hb rfl
      obtain rfl : k = key b := by simpa using hb
      exact hkey hk

omit [DecidableEq κ] in
theorem Covers.extend (h : Covers key make objs a) (hp : objs <+: objs') :
    Covers key make objs' a :=
  fun b hb => (hp.map key).subset (h b hb)

theorem prefix_foldl : objs <+: as.foldl (register key make) objs := by
  induction as generalizing objs with
  | nil => exact List.prefix_refl objs
  | cons a as ih => exact prefix_register.trans ih

theorem covers_foldl (ha : a ∈ as) : Covers key make (as.foldl (register key make) objs) a := by
  induction as generalizing objs with
  | nil => cases ha
  | cons b as ih =>
    rcases List.mem_cons.mp ha with rfl | ha
    · exact covers_register.extend prefix_foldl
    · exact ih ha

theorem foldl_of_covers (h : ∀ a ∈ as, Covers key make objs a) :
    as.foldl (register key make) objs = objs := by
  induction as with
  | nil => rfl
  | cons a as ih =>
    rw [List.foldl_cons, register_of_covers (h a List.mem_cons_self)]
    exact ih fun b hb => h b (List.mem_cons_of_mem a hb)

theorem nodup_foldl (h : (objs.map key).Nodup) :
    ((as.foldl (register key make) objs).map key).Nodup := by
  induction as generalizing objs with
  | nil => exact h
  | cons a as ih => exact ih (nodup_register h)

section Loads

variable {τ ε : Type*} {f : List β → τ → Except ε (List β)} {t : τ} {ts : List τ}

/-- A load of `t` adds the same things to any list, or fails on any list. -/
def Loads (key : β → κ) (make : α → Option β) (f : List β → τ → Except ε (List β)) : Prop :=
  ∀ t, (∃ as : List α, ∀ objs, f objs t = .ok (as.foldl (register key make) objs)) ∨
    ∀ objs, ∃ e, f objs t = .error e

theorem Loads.cases (hf : Loads key make f) (h : f objs t = .ok objs') :
    ∃ as : List α, objs' = as.foldl (register key make) objs ∧
      ∀ objs, f objs t = .ok (as.foldl (register key make) objs) := by
  rcases hf t with ⟨as, has⟩ | herr
  · exact ⟨as, Except.ok.inj (h.symm.trans (has objs)), has⟩
  · obtain ⟨e, he⟩ := herr objs
    cases he.symm.trans h

theorem Loads.prefix_foldlM (hf : Loads key make f) (h : ts.foldlM f objs = .ok objs') :
    objs <+: objs' := by
  induction ts generalizing objs with
  | nil =>
    cases h
    exact List.prefix_rfl
  | cons t ts ih =>
    rw [List.foldlM_cons] at h
    cases hrun : f objs t with
    | error e =>
      rw [hrun] at h
      cases h
    | ok objs₁ =>
      rw [hrun] at h
      obtain ⟨as, rfl, _⟩ := hf.cases hrun
      exact prefix_foldl.trans (ih h)

theorem Loads.nodup_foldlM (hf : Loads key make f) (h : ts.foldlM f objs = .ok objs')
    (hnodup : (objs.map key).Nodup) : (objs'.map key).Nodup := by
  induction ts generalizing objs with
  | nil =>
    cases h
    exact hnodup
  | cons t ts ih =>
    rw [List.foldlM_cons] at h
    cases hrun : f objs t with
    | error e =>
      rw [hrun] at h
      cases h
    | ok objs₁ =>
      rw [hrun] at h
      obtain ⟨as, rfl, _⟩ := hf.cases hrun
      exact ih h (nodup_foldl hnodup)

/-- What was loaded once is loaded again without effect, whatever was loaded in between. -/
theorem Loads.again (hf : Loads key make f) (h : ts.foldlM f objs = .ok objs') (ht : t ∈ ts) :
    f objs' t = .ok objs' := by
  induction ts generalizing objs with
  | nil => cases ht
  | cons u ts ih =>
    rw [List.foldlM_cons] at h
    cases hrun : f objs u with
    | error e =>
      rw [hrun] at h
      cases h
    | ok objs₁ =>
      rw [hrun] at h
      rcases List.mem_cons.mp ht with rfl | ht
      · obtain ⟨as, rfl, has⟩ := hf.cases hrun
        have hp := hf.prefix_foldlM h
        rw [has, foldl_of_covers fun a ha => (covers_foldl ha).extend hp]
      · exact ih h ht

end Loads

section Views

variable {γ : Type*} {key' : γ → κ} {k : κ}

/-- The things are looked at when they are made, or in the end. -/
theorem map_foldl {view : β → γ} (hkey : ∀ b, key' (view b) = key b) :
    (as.foldl (register key make) objs).map view =
      as.foldl (register key' fun a => (make a).map view) (objs.map view) := by
  induction as generalizing objs with
  | nil => rfl
  | cons a as ih =>
    rw [List.foldl_cons, List.foldl_cons, ih]
    congr 1
    have hkeys : (objs.map view).map key' = objs.map key := by simp [hkey]
    cases hmake : make a with
    | none => rw [register_none hmake, register_none (by simp [hmake])]
    | some b =>
      have hview : register key' (fun a => (make a).map view) (objs.map view) a =
          if key' (view b) ∈ (objs.map view).map key' then objs.map view
          else objs.map view ++ [view b] := register_some (by simp [hmake])
      rw [hview, register_some hmake, hkeys, hkey]
      split <;> simp

/-- The first thing with a key keeps its place. -/
theorem find?_foldl : (as.foldl (register key make) objs).find? (key · = k) =
    (objs ++ as.filterMap make).find? (key · = k) := by
  induction as generalizing objs with
  | nil => simp
  | cons a as ih =>
    rw [List.foldl_cons, ih]
    cases hmake : make a with
    | none => rw [register_none hmake, List.filterMap_cons_none hmake]
    | some b =>
      rw [register_some hmake, List.filterMap_cons_some hmake]
      split
      · rename_i hkey
        rw [List.find?_append, List.find?_append, List.find?_cons]
        by_cases hk : key b = k
        · obtain ⟨o, ho, hob⟩ := List.mem_map.mp hkey
          have hsome : (objs.find? (key · = k)).isSome := by
            rw [List.find?_isSome]
            exact ⟨o, ho, by simp [hob, hk]⟩
          rw [Option.or_of_isSome hsome, Option.or_of_isSome hsome]
        · simp [hk]
      · rw [List.append_assoc, List.singleton_append]

/-- One more thing, chosen or not. -/
theorem filterMap_register {sel : β → Option γ} {b : β} {bs : List β} (hmake : make a = some b)
    (hkey : ∀ b c, sel b = some c → key' c = key b)
    (hfirst : (sel b).isSome →
      ∀ o, (objs ++ b :: bs).find? (key · = key b) = some o → (sel o).isSome) :
    register key' (fun a => (make a).bind sel) (objs.filterMap sel) a =
      (register key make objs a).filterMap sel := by
  rw [register_some hmake]
  cases hsel : sel b with
  | none =>
    rw [register_none (by simp [hmake, hsel])]
    split <;> simp [hsel]
  | some c =>
    have hmem : key' c ∈ (objs.filterMap sel).map key' ↔ key b ∈ objs.map key := by
      constructor
      · intro h
        obtain ⟨c', hc', hck⟩ := List.mem_map.mp h
        obtain ⟨o, ho, hselo⟩ := List.mem_filterMap.mp hc'
        refine List.mem_map.mpr ⟨o, ho, ?_⟩
        rw [← hkey o c' hselo, hck, hkey b c hsel]
      · intro h
        obtain ⟨o, ho, hob⟩ := List.mem_map.mp h
        have hsome : (objs.find? (key · = key b)).isSome := by
          rw [List.find?_isSome]
          exact ⟨o, ho, by simp [hob]⟩
        obtain ⟨o', ho'⟩ := Option.isSome_iff_exists.mp hsome
        obtain ⟨c', hc'⟩ := Option.isSome_iff_exists.mp
          (hfirst (by simp [hsel]) o' (by rw [List.find?_append, ho', Option.some_or]))
        refine List.mem_map.mpr
          ⟨c', List.mem_filterMap.mpr ⟨o', List.mem_of_find?_eq_some ho', hc'⟩, ?_⟩
        rw [hkey o' c' hc', hkey b c hsel]
        have hfound := List.find?_some ho'
        exact of_decide_eq_true hfound
    have hchosen : register key' (fun a => (make a).bind sel) (objs.filterMap sel) a =
        if key' c ∈ (objs.filterMap sel).map key' then objs.filterMap sel
        else objs.filterMap sel ++ [c] := register_some (by simp [hmake, hsel])
    rw [hchosen]
    by_cases h : key b ∈ objs.map key
    · rw [if_pos h, if_pos (hmem.mpr h)]
    · rw [if_neg h, if_neg (hmem.not.mpr h), List.filterMap_append,
        List.filterMap_cons_some hsel, List.filterMap_nil]

/-- Choosing among the things first, or after they have been registered: it is the same just when
what is chosen was never kept out by something that is not. -/
theorem filterMap_foldl_iff {sel : β → Option γ} (hkey : ∀ b c, sel b = some c → key' c = key b)
    (hnodup : (objs.map key).Nodup) :
    as.foldl (register key' fun a => (make a).bind sel) (objs.filterMap sel) =
        (as.foldl (register key make) objs).filterMap sel ↔
      ∀ a ∈ as, ∀ b, make a = some b → (sel b).isSome →
        ∀ o, (objs ++ as.filterMap make).find? (key · = key b) = some o → (sel o).isSome := by
  constructor
  · intro h a ha b hb hsel o ho
    obtain ⟨c, hc⟩ := Option.isSome_iff_exists.mp hsel
    have hcovered : key' c ∈ ((as.foldl (register key make) objs).filterMap sel).map key' := by
      rw [← h]
      exact covers_foldl ha c (by simp [hb, hc])
    obtain ⟨c', hc', hck⟩ := List.mem_map.mp hcovered
    obtain ⟨o', ho', hselo⟩ := List.mem_filterMap.mp hc'
    rw [← find?_foldl] at ho
    have hfound := List.find?_some ho
    have hkeys : key o' = key o := by
      rw [← hkey o' c' hselo, hck, hkey b c hc]
      exact (of_decide_eq_true hfound).symm
    have hsame : o' = o :=
      List.inj_on_of_nodup_map (nodup_foldl hnodup) ho' (List.mem_of_find?_eq_some ho) hkeys
    rw [← hsame, hselo]
    rfl
  · intro h
    clear hnodup
    induction as generalizing objs with
    | nil => rfl
    | cons a as ih =>
      have hrest : ∀ objs', (∀ k, (objs' ++ as.filterMap make).find? (key · = k) =
          (objs ++ (a :: as).filterMap make).find? (key · = k)) →
          as.foldl (register key' fun a => (make a).bind sel) (objs'.filterMap sel) =
            (as.foldl (register key make) objs').filterMap sel := by
        intro objs' hfind
        refine ih fun a' ha' b hb hsel o ho => ?_
        rw [hfind] at ho
        exact h a' (List.mem_cons_of_mem a ha') b hb hsel o ho
      rw [List.foldl_cons, List.foldl_cons]
      have hsel : register key' (fun a => (make a).bind sel) (objs.filterMap sel) a =
          (register key make objs a).filterMap sel := by
        cases hmake : make a with
        | none => rw [register_none hmake, register_none (by simp [hmake])]
        | some b =>
          have hkeep := h a List.mem_cons_self b hmake
          rw [List.filterMap_cons_some hmake] at hkeep
          exact filterMap_register hmake hkey hkeep
      rw [hsel]
      refine hrest _ fun k => ?_
      rw [← find?_foldl, ← find?_foldl]
      rfl

end Views

end Atrace.Lib.Registry
