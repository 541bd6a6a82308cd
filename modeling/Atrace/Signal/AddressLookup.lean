import Atrace.Signal.BreakpointAdd
import Atrace.Signal.MapsFormat

/-! Which object `object_get_by_address` finds for an address, and what `breakpoint_add` makes of it. -/
namespace Atrace.Signal

open Atrace.Lib

section FirstMatch

variable {ν : Type*} {xs : List ν} {p q : ν → Bool}

/-- A search with a test `q` that lets through more than the intended `p` still finds what `p`
is true of, unless something else that passes `q` comes first. -/
theorem findIdx?_eq_intended_iff (hpq : ∀ x ∈ xs, p x = true → q x = true)
    (huniq : ∀ (i j : Nat) (x y : ν), xs[i]? = some x → xs[j]? = some y → p x = true →
      p y = true → i = j) :
    ((∀ (i : Nat) (x : ν), xs[i]? = some x → p x = true → xs.findIdx? q = some i) ∧
      ((∀ x ∈ xs, p x = false) → xs.findIdx? q = none)) ↔
    ∀ (j : Nat) (x : ν), xs[j]? = some x → q x = true → p x = false →
      ∃ i < j, ∃ y, xs[i]? = some y ∧ p y = true := by
  constructor
  · rintro ⟨hin, hout⟩ j x hj hqx hpx
    by_cases hex : ∃ (i : Nat) (y : ν), xs[i]? = some y ∧ p y = true
    · obtain ⟨i, y, hi, hpy⟩ := hex
      refine ⟨i, ?_, y, hi, hpy⟩
      obtain ⟨hlt, _, hfirst⟩ := List.findIdx?_eq_some_iff_getElem.mp (hin i y hi hpy)
      obtain ⟨hltj, rfl⟩ := List.getElem?_eq_some_iff.mp hj
      have hle : i ≤ j := by
        by_contra hgt
        exact hfirst j (by omega) hqx
      have hne : i ≠ j := by
        rintro rfl
        obtain ⟨_, rfl⟩ := List.getElem?_eq_some_iff.mp hi
        simp [hpx] at hpy
      omega
    · have hnone : ∀ y ∈ xs, p y = false := by
        intro y hy
        obtain ⟨i, hi⟩ := List.getElem?_of_mem hy
        rw [← Bool.not_eq_true]
        exact fun hpy => hex ⟨i, y, hi, hpy⟩
      have hmiss := List.findIdx?_eq_none_iff.mp (hout hnone) x (List.mem_of_getElem? hj)
      simp [hqx] at hmiss
  · intro h
    -- what the search finds is intended, or an intended match came before it
    have hfound : ∀ j, xs.findIdx? q = some j → ∃ y, xs[j]? = some y ∧ p y = true := by
      intro j hj
      obtain ⟨hlt, hq, hfirst⟩ := List.findIdx?_eq_some_iff_getElem.mp hj
      cases hp : p xs[j] with
      | true => exact ⟨xs[j], List.getElem?_eq_getElem hlt, hp⟩
      | false =>
        obtain ⟨i, hij, y, hi, hpy⟩ := h j xs[j] (List.getElem?_eq_getElem hlt) hq hp
        obtain ⟨_, rfl⟩ := List.getElem?_eq_some_iff.mp hi
        exact (hfirst i hij (hpq _ (List.mem_of_getElem? hi) hpy)).elim
    constructor
    · intro i x hi hpx
      cases hf : xs.findIdx? q with
      | none =>
        have hmiss := List.findIdx?_eq_none_iff.mp hf x (List.mem_of_getElem? hi)
        simp [hpq x (List.mem_of_getElem? hi) hpx] at hmiss
      | some j =>
        obtain ⟨y, hj, hpy⟩ := hfound j hf
        rw [huniq j i y x hj hi hpy hpx]
    · intro hnone
      cases hf : xs.findIdx? q with
      | none => rfl
      | some j =>
        obtain ⟨y, hj, hpy⟩ := hfound j hf
        simp [hnone y (List.mem_of_getElem? hj)] at hpy

end FirstMatch

/-- The address is in the mapping: the end of a mapping is not part of it. -/
def Object.contains (o : Object) (a : Addr) : Bool := o.textStart ≤ a && a < o.textEnd

/-- No address is in both half-open ranges. -/
def RangesApart (r q : Addr × Addr) : Prop := ∀ a, ¬ (r.1 ≤ a ∧ a < r.2 ∧ q.1 ≤ a ∧ a < q.2)

theorem covers_iff (o : Object) (a : Addr) :
    o.covers a = true ↔ o.contains a = true ∨ (o.textStart ≤ a ∧ o.textEnd = a) := by
  simp only [Object.covers, Object.contains, Bool.and_eq_true, decide_eq_true_eq, BitVec.le_def,
    BitVec.lt_def, ← BitVec.toNat_inj]
  omega

theorem registered_sublist (seen : List (Addr × Addr)) (es : List MapEntry) :
    (registered seen es).Sublist es := by
  induction es generalizing seen with
  | nil => exact List.Sublist.refl _
  | cons e es ih =>
    rw [registered]
    split
    · exact (ih _).cons_cons e
    · exact (ih _).cons e

/-- The object as `object_parse_mmap` leaves it, before breakpoints are linked on its chain. -/
def Object.bare (o : Object) : Object := { o with breakpointChain := [] }

namespace Tracer

variable {rb : RbLib BpEntry} {s s' : Tracer} {b : BkptPtr} {news : List NewSlots} {code : Int}
  {a self : Addr} {es : List MapEntry}

/-- The registry was built from the text of these mappings. -/
def BuiltFrom (self : Addr) (es : List MapEntry) (s : Tracer) : Prop :=
  objectParseMmap self [] (renderMaps es) = .ok (s.objects.map Object.bare, 0)

/-- The address is resolved to the mapping that it is in, and breakpoints are accepted there. -/
structure Resolves (rb : RbLib BpEntry) (s : Tracer) (a : Addr) : Prop where
  inside : ∀ (o : ObjPtr) (obj : Object), s.objects[o]? = some obj → obj.contains a = true →
    s.objectGetByAddress a = some o
  outside : (∀ obj ∈ s.objects, obj.contains a = false) → s.objectGetByAddress a = none
  refused : ∀ b news s' code, s.enterAddr b = a → s.breakpointAdd rb b news = .ok (s', code) →
    (∀ obj ∈ s.objects, obj.contains a = false) → code = -1
  flag : ∀ b news s' code, s.enterAddr b = a → s.breakpointAdd rb b news = .ok (s', code) →
    ∀ obj ∈ s.objects, obj.contains a = true → (code = -2 ↔ obj.hasAttr .NO_BKPT = true)

/-- An object whose range ends at the address comes before the one that the address is in. -/
def EndsFirst (s : Tracer) (a : Addr) : Prop :=
  ∃ (j : ObjPtr) (obj : Object), s.objects[j]? = some obj ∧ obj.textStart ≤ a ∧
    obj.textEnd = a ∧ ∀ i < j, ∀ x : Object, s.objects[i]? = some x → x.contains a = false

theorem addSlot_code (h : s.addSlot rb b news = .ok (s', code)) : code = 0 ∨ code = -4 := by
  obtain ⟨⟨slots, rest, p, i⟩, _, h⟩ := bind_ok h
  obtain ⟨⟨t, c⟩, _, h⟩ := bind_ok h
  dsimp only at h
  split at h
  · obtain ⟨slots', _, h⟩ := bind_ok h
    cases h
    exact Or.inr rfl
  · cases h
    exact Or.inl rfl

/-- What the code of a `breakpoint_add` that returns says about the lookup. -/
theorem add_code (h : s.breakpointAdd rb b news = .ok (s', code)) :
    (s.objectGetByAddress (s.enterAddr b) = none → code = -1) ∧
    ∀ o, s.objectGetByAddress (s.enterAddr b) = some o → (code = -2 ↔ s.noBkpt o = true) := by
  unfold breakpointAdd at h
  split at h
  · split at h
    · rename_i ho
      cases h
      simp [ho]
    · rename_i o ho
      refine ⟨by simp [ho], ?_⟩
      intro o' ho'
      obtain rfl := Option.some.inj (ho.symm.trans ho')
      split at h
      · rename_i hno
        cases h
        simp [hno]
      · rename_i hno
        have hcode : code ≠ -2 := by
          obtain ⟨⟨t, c⟩, _, h⟩ := bind_ok h
          dsimp only at h
          split at h
          · cases h
            decide
          · split at h
            · cases h
              decide
            · obtain ⟨⟨u, c'⟩, hslot, h⟩ := bind_ok h
              have hc' := addSlot_code hslot
              dsimp only at h
              split at h
              · cases h
                omega
              · cases h
                decide
        simp [hno, hcode]
  · cases h

/-- The registry lists the wanted mappings, so its ranges are disjoint as those of the text are. -/
theorem contains_unique (hbuilt : s.BuiltFrom self es)
    (hdisj : es.Pairwise fun d e => RangesApart d.range e.range) (i j : Nat) (x y : Object)
    (hi : s.objects[i]? = some x) (hj : s.objects[j]? = some y) (hx : x.contains a = true)
    (hy : y.contains a = true) : i = j := by
  have hranges : s.objects.map Object.range = (registered [] es).map MapEntry.range := by
    rw [BuiltFrom, objectParseMmap_foldl, foldl_addLine] at hbuilt
    have hbare := congrArg Prod.fst (Except.ok.inj hbuilt)
    have hmap := congrArg (List.map Object.range) hbare
    simp only [List.map_map, List.map_nil, List.nil_append] at hmap
    exact hmap.symm.trans (List.map_congr_left fun e _ => newObject_range e.line)
  have hpair : (s.objects.map Object.range).Pairwise RangesApart := by
    rw [hranges, List.pairwise_map]
    exact hdisj.sublist (registered_sublist [] es)
  rw [List.pairwise_map] at hpair
  obtain ⟨hilt, rfl⟩ := List.getElem?_eq_some_iff.mp hi
  obtain ⟨hjlt, rfl⟩ := List.getElem?_eq_some_iff.mp hj
  simp only [Object.contains, Bool.and_eq_true, decide_eq_true_eq] at hx hy
  have hapart := List.pairwise_iff_getElem.mp hpair
  rcases Nat.lt_trichotomy i j with hij | hij | hij
  · exact (hapart i j hilt hjlt hij a ⟨hx.1, hx.2, hy.1, hy.2⟩).elim
  · exact hij
  · exact (hapart j i hjlt hilt hij a ⟨hy.1, hy.2, hx.1, hx.2⟩).elim

/-- The lookup and `breakpoint_add` go by the mapping that the address is in, just when no mapping
that ends at the address comes first. -/
theorem resolves_iff (rb : RbLib BpEntry) (hbuilt : s.BuiltFrom self es)
    (hdisj : es.Pairwise fun d e => RangesApart d.range e.range) (a : Addr) :
    s.Resolves rb a ↔ ¬ s.EndsFirst a := by
  have hlookup := findIdx?_eq_intended_iff (p := (·.contains a)) (q := (·.covers a))
    (fun o (_ : o ∈ s.objects) h => (covers_iff o a).mpr (Or.inl h))
    (fun i j x y => contains_unique hbuilt hdisj i j x y)
  have hends : (∀ (j : Nat) (x : Object), s.objects[j]? = some x → x.covers a = true →
      x.contains a = false → ∃ i < j, ∃ y : Object, s.objects[i]? = some y ∧ y.contains a = true) ↔
      ¬ s.EndsFirst a := by
    constructor
    · rintro h ⟨j, obj, hj, hstart, hend, hnone⟩
      have hout : obj.contains a = false := by simp [Object.contains, hend]
      obtain ⟨i, hij, y, hi, hy⟩ := h j obj hj ((covers_iff obj a).mpr (Or.inr ⟨hstart, hend⟩)) hout
      simp [hnone i hij y hi] at hy
    · intro h j x hj hq hp
      by_contra hnone
      rcases (covers_iff x a).mp hq with hin | ⟨hstart, hend⟩
      · simp [hp] at hin
      · refine h ⟨j, x, hj, hstart, hend, ?_⟩
        intro i hij y hi
        rw [← Bool.not_eq_true]
        exact fun hy => hnone ⟨i, hij, y, hi, hy⟩
  rw [← hends, ← hlookup]
  constructor
  · intro h
    exact ⟨h.inside, h.outside⟩
  · rintro ⟨hin, hout⟩
    refine ⟨hin, hout, ?_, ?_⟩
    · rintro b news s' code rfl hrun hnone
      exact (add_code hrun).1 (hout hnone)
    · rintro b news s' code rfl hrun obj hobj hcont
      obtain ⟨o, ho⟩ := List.getElem?_of_mem hobj
      rw [(add_code hrun).2 o (hin o obj ho hcont)]
      simp [noBkpt, ho]

/-- The registry of the two mappings; the tracer's own code is in the upper one. -/
def adjacentMappings : Tracer where
  index := .init fun _ => 0x11000
  slots := .empty
  objects := [newObject 0x11800 libraryEntry.line, newObject 0x11800 upperMapping.line]
  bkpt := fun _ => ⟨0, none, 0, none⟩
  mem := fun _ => 0
  writable := fun _ => false

theorem adjacentMappings_builtFrom :
    adjacentMappings.BuiltFrom 0x11800 [libraryEntry, upperMapping] := by
  rw [BuiltFrom, objectParseMmap_foldl]
  rfl

theorem adjacentMappings_apart :
    [libraryEntry, upperMapping].Pairwise fun d e => RangesApart d.range e.range := by
  have hmid : libraryEntry.range.2 = upperMapping.range.1 := rfl
  simp only [List.pairwise_cons, List.mem_singleton, forall_eq, List.not_mem_nil, false_imp_iff,
    implies_true, List.Pairwise.nil, and_true]
  rintro a ⟨_, hlt, hle, _⟩
  rw [hmid] at hlt
  exact BitVec.not_lt.mpr hle hlt

theorem resolves_inside : adjacentMappings.Resolves .unbalanced 0x10800 := by
  refine (resolves_iff .unbalanced adjacentMappings_builtFrom adjacentMappings_apart _).mpr ?_
  rintro ⟨j, obj, hj, _, hend, _⟩
  have hobj := List.mem_of_getElem? hj
  simp only [adjacentMappings, List.mem_cons, List.not_mem_nil, or_false] at hobj
  rcases hobj with rfl | rfl
  · exact absurd hend (by decide)
  · exact absurd hend (by decide)

/-- The first address of the upper mapping is taken for the lower one, so a breakpoint is accepted
in the tracer's own code; the address after it is taken for the upper one. -/
theorem adjacent_mappings_misresolved :
    adjacentMappings.objectGetByAddress 0x11000 = some 0 ∧
      adjacentMappings.noBkpt 0 = false ∧ adjacentMappings.noBkpt 1 = true ∧
      adjacentMappings.objectGetByAddress 0x12000 = some 1 ∧
      ¬ adjacentMappings.Resolves .unbalanced 0x11000 ∧
      ¬ adjacentMappings.Resolves .unbalanced 0x12000 := by
  refine ⟨by decide, by decide, by decide, by decide, ?_, ?_⟩
  · intro h
    have hfound := h.inside 1 _ rfl (by decide)
    exact absurd hfound (by decide)
  · intro h
    have hfound := h.outside (by decide)
    exact absurd hfound (by decide)

end Tracer

end Atrace.Signal
