import Mathlib.Data.List.Nodup
import Mathlib.Logic.Function.Basic

/-! Circular doubly linked lists whose entries carry the links. -/
namespace Atrace.Lib

/-- The two links of every address. -/
structure Links (α : Type*) where
  next : α → α
  prev : α → α

namespace Links

variable {α : Type*} {m m' : Links α} {a b c d x y h : α} {l r : List α}

/-- `b` follows `a`. -/
structure Adjacent (m : Links α) (a b : α) : Prop where
  next : m.next a = b
  prev : m.prev b = a

/-- The entries `l` lie between `a` and `b`. -/
def Path (m : Links α) : α → List α → α → Prop
  | a, [], b => m.Adjacent a b
  | a, x :: l, b => m.Adjacent a x ∧ Path m x l b

/-- A list with the head `h` and the entries `l`. -/
structure Ring (m : Links α) (h : α) (l : List α) : Prop where
  nodup : (h :: l).Nodup
  path : m.Path h l h

theorem path_append : m.Path a (l ++ x :: r) b ↔ m.Path a l x ∧ m.Path x r b := by
  induction l generalizing a with
  | nil => exact Iff.rfl
  | cons y l ih => simp only [List.cons_append, Path, ih, and_assoc]

namespace Path

theorem next_eq (h : m.Path a l b) : m.next a = l.headD b := by
  cases l with
  | nil => exact h.next
  | cons x l => exact h.1.next

theorem prev_next (h : m.Path a l b) : m.prev (m.next a) = a := by
  cases l with
  | nil => rw [h.next, h.prev]
  | cons x l => rw [h.1.next, h.1.prev]

theorem next_prev (h : m.Path a l b) : m.next (m.prev b) = b := by
  induction l generalizing a with
  | nil => rw [h.prev, h.next]
  | cons x l ih => exact ih h.2

theorem prev_mem (h : m.Path a l b) : m.prev b ∈ a :: l := by
  induction l generalizing a with
  | nil => simp [h.prev]
  | cons x l ih => exact List.mem_cons_of_mem a (ih h.2)

/-- A path that keeps away from `x` is there after a change to links of `x` only. -/
theorem apart (h : m.Path a l b) (ha : a ≠ x) (hl : x ∉ l) (hb : b ≠ x)
    (hm : ∀ c d, c ≠ x → d ≠ x → m.Adjacent c d → m'.Adjacent c d) : m'.Path a l b := by
  induction l generalizing a with
  | nil => exact hm a b ha hb h
  | cons y l ih =>
    have hy : y ≠ x := fun he => hl (he ▸ List.mem_cons_self)
    exact ⟨hm a y ha hy h.1, ih h.2 hy fun hmem => hl (List.mem_cons_of_mem y hmem)⟩

/-- A path is there after changes to links that it does not use. -/
theorem congr (h : m.Path a l b) (hnext : ∀ c ∈ a :: l, m'.next c = m.next c)
    (hprev : ∀ c ∈ b :: l, m'.prev c = m.prev c) : m'.Path a l b := by
  induction l generalizing a with
  | nil => exact ⟨(hnext a (by simp)).trans h.next, (hprev b (by simp)).trans h.prev⟩
  | cons x l ih =>
    refine ⟨⟨(hnext a (by simp)).trans h.1.next, (hprev x (by simp)).trans h.1.prev⟩, ?_⟩
    refine ih h.2 (fun c hc => hnext c (List.mem_cons_of_mem a hc)) ?_
    intro c hc
    rcases List.mem_cons.mp hc with rfl | hc
    · exact hprev c List.mem_cons_self
    · exact hprev c (List.mem_cons_of_mem b (List.mem_cons_of_mem x hc))

end Path

theorem Ring.congr (hr : m.Ring h l) (hm : ∀ c ∈ h :: l, m'.next c = m.next c ∧ m'.prev c = m.prev c) :
    m'.Ring h l :=
  ⟨hr.nodup, hr.path.congr (fun c hc => (hm c hc).1) fun c hc => (hm c hc).2⟩

theorem Ring.not_mem (hr : m.Ring h (l ++ x :: r)) : x ≠ h ∧ x ∉ l ++ r := by
  obtain ⟨hh, hnodup⟩ := List.nodup_cons.mp hr.nodup
  refine ⟨?_, (List.nodup_middle.mp hnodup).notMem⟩
  rintro rfl
  exact hh (List.mem_append_right l List.mem_cons_self)

/-- Only the head of an empty list follows itself. -/
theorem Ring.next_ne (hr : m.Ring h l) (hx : x ∈ l) : m.next x ≠ x := by
  obtain ⟨l₁, l₂, rfl⟩ := List.append_of_mem hx
  obtain ⟨hxh, hmem⟩ := hr.not_mem
  rw [(path_append.mp hr.path).2.next_eq]
  cases l₂ with
  | nil => exact Ne.symm hxh
  | cons y r =>
    rintro rfl
    exact hmem (by simp)

variable [DecidableEq α]

/-- Link `a` and `b` to each other. -/
def join (m : Links α) (a b : α) : Links α :=
  ⟨Function.update m.next a b, Function.update m.prev b a⟩

/-- Take `x` out from between its neighbours; its own links stay. -/
def unlink (m : Links α) (x : α) : Links α := m.join (m.prev x) (m.next x)

/-- Put `x` between `a` and `b`. -/
def insert (m : Links α) (x a b : α) : Links α := (m.join x b).join a x

def setLinks (m : Links α) (x next prev : α) : Links α :=
  ⟨Function.update m.next x next, Function.update m.prev x prev⟩

theorem adjacent_join (m : Links α) (a b : α) : (m.join a b).Adjacent a b :=
  ⟨Function.update_self .., Function.update_self ..⟩

theorem Adjacent.join (h : m.Adjacent c d) (hc : c ≠ a) (hd : d ≠ b) :
    (m.join a b).Adjacent c d :=
  ⟨(Function.update_of_ne hc ..).trans h.next, (Function.update_of_ne hd ..).trans h.prev⟩

theorem Adjacent.setLinks (h : m.Adjacent c d) (hc : c ≠ x) (hd : d ≠ x) :
    (m.setLinks x a b).Adjacent c d :=
  ⟨(Function.update_of_ne hc ..).trans h.next, (Function.update_of_ne hd ..).trans h.prev⟩

/-- Neighbours other than `x` stay neighbours when it is taken out. -/
theorem Adjacent.unlink (h : m.Adjacent c d) (hc : c ≠ x) (hd : d ≠ x)
    (hnext : m.next (m.prev x) = x) (hprev : m.prev (m.next x) = x) :
    (m.unlink x).Adjacent c d := by
  apply h.join
  · rintro rfl
    exact hd (h.next.symm.trans hnext)
  · rintro rfl
    exact hc (h.prev.symm.trans hprev)

theorem Path.unlink (h : m.Path a l x) (ha : a ≠ x) (hl : x ∉ l)
    (hprev : m.prev (m.next x) = x) : (m.unlink x).Path a l (m.next x) := by
  induction l generalizing a with
  | nil =>
    have hx : m.prev x = a := h.prev
    rw [Links.unlink, hx]
    exact adjacent_join m a (m.next x)
  | cons y l ih =>
    have hy : y ≠ x := fun he => hl (he ▸ List.mem_cons_self)
    refine ⟨h.1.unlink ha hy h.next_prev hprev, ih h.2 hy ?_⟩
    exact fun hmem => hl (List.mem_cons_of_mem y hmem)

theorem Path.insert (h : m.Path a l b) (hb : b ∉ l) (hx : x ∉ a :: l) (hxb : b ≠ x) :
    (m.insert x (m.prev b) b).Path a (l ++ [x]) b := by
  have hlast : (m.insert x (m.prev b) b).Adjacent x b := by
    refine (adjacent_join m x b).join ?_ hxb
    intro he
    exact hx (he ▸ h.prev_mem)
  rw [path_append]
  refine ⟨?_, hlast⟩
  clear hlast
  induction l generalizing a with
  | nil =>
    have ha : m.prev b = a := h.prev
    rw [Links.insert, ha]
    exact adjacent_join _ a x
  | cons y l ih =>
    obtain ⟨hby, hbl⟩ := not_or.mp (List.mem_cons.not.mp hb)
    obtain ⟨hxa, hxl⟩ := not_or.mp (List.mem_cons.not.mp hx)
    have hxy : x ≠ y := fun he => hxl (he ▸ List.mem_cons_self)
    refine ⟨?_, ih h.2 hbl hxl⟩
    refine (h.1.join (Ne.symm hxa) (Ne.symm hby)).join ?_ (Ne.symm hxy)
    rintro rfl
    exact hby (h.next_prev.symm.trans h.1.next)

namespace Ring

/-- What `x` is linked to does not matter to a list that it is not on. -/
theorem setLinks (hr : m.Ring h l) (hx : x ∉ h :: l) : (m.setLinks x a b).Ring h l := by
  obtain ⟨hxh, hxl⟩ := not_or.mp (List.mem_cons.not.mp hx)
  refine ⟨hr.nodup, hr.path.apart (Ne.symm hxh) hxl (Ne.symm hxh) ?_⟩
  exact fun c d hc hd hcd => hcd.setLinks hc hd

theorem unlink (hr : m.Ring h (l ++ x :: r)) : (m.unlink x).Ring h (l ++ r) := by
  obtain ⟨hxh, hx⟩ := hr.not_mem
  obtain ⟨hxl, hxr⟩ := not_or.mp (List.mem_append.not.mp hx)
  obtain ⟨hbefore, hafter⟩ := path_append.mp hr.path
  have hbefore' := hbefore.unlink (Ne.symm hxh) hxl hafter.prev_next
  refine ⟨?_, ?_⟩
  · refine hr.nodup.sublist (List.Sublist.cons_cons h ?_)
    exact List.Sublist.append_left (List.sublist_cons_self x r) l
  · cases r with
    | nil =>
      rw [show m.next x = h from hafter.next] at hbefore'
      rwa [List.append_nil]
    | cons y r =>
      rw [hafter.1.next] at hbefore'
      refine path_append.mpr ⟨hbefore', ?_⟩
      have hy : y ≠ x := fun he => hxr (he ▸ List.mem_cons_self)
      refine hafter.2.apart hy (fun hmem => hxr (List.mem_cons_of_mem y hmem)) (Ne.symm hxh) ?_
      exact fun c d hc hd hcd => hcd.unlink hc hd hbefore.next_prev hafter.prev_next

/-- An entry put behind the head is the first one. -/
theorem push (hr : m.Ring h l) (hx : x ∉ h :: l) : (m.insert x h (m.next h)).Ring h (x :: l) := by
  obtain ⟨hxh, hxl⟩ := not_or.mp (List.mem_cons.not.mp hx)
  obtain ⟨hh, hnodup⟩ := List.nodup_cons.mp hr.nodup
  refine ⟨?_, adjacent_join _ h x, ?_⟩
  · exact List.nodup_cons.mpr ⟨by simp [hh, Ne.symm hxh], List.nodup_cons.mpr ⟨hxl, hnodup⟩⟩
  · cases l with
    | nil =>
      rw [show m.next h = h from hr.path.next]
      exact (adjacent_join m x h).join hxh (Ne.symm hxh)
    | cons y l =>
      obtain ⟨hyh, hhl⟩ := not_or.mp (List.mem_cons.not.mp hh)
      obtain ⟨hxy, hxl⟩ := not_or.mp (List.mem_cons.not.mp hxl)
      rw [hr.path.1.next]
      refine ⟨(adjacent_join m x y).join hxh (Ne.symm hxy), hr.path.2.congr ?_ ?_⟩
      · intro c hc
        have hcx : c ≠ x := by
          rintro rfl
          exact (List.mem_cons.mp hc).elim hxy hxl
        have hch : c ≠ h := by
          rintro rfl
          exact (List.mem_cons.mp hc).elim hyh hhl
        simp [Links.insert, join, hcx, hch]
      · intro c hc
        have hcx : c ≠ x := by
          rintro rfl
          exact (List.mem_cons.mp hc).elim hxh hxl
        have hcy : c ≠ y := by
          rintro rfl
          rcases List.mem_cons.mp hc with rfl | hc
          · exact hyh rfl
          · exact (List.nodup_cons.mp hnodup).1 hc
        simp [Links.insert, join, hcx, hcy]

theorem insert (hr : m.Ring h l) (hx : x ∉ h :: l) :
    (m.insert x (m.prev h) h).Ring h (l ++ [x]) := by
  obtain ⟨hxh, hxl⟩ := not_or.mp (List.mem_cons.not.mp hx)
  obtain ⟨hh, hnodup⟩ := List.nodup_cons.mp hr.nodup
  refine ⟨?_, hr.path.insert hh hx (Ne.symm hxh)⟩
  refine List.nodup_cons.mpr ⟨by simp [hh, Ne.symm hxh], ?_⟩
  exact List.nodup_append.mpr ⟨hnodup, List.nodup_singleton x, by
    rintro y hy _ hz rfl
    exact hxl (List.mem_singleton.mp hz ▸ hy)⟩

end Ring

end Links

end Atrace.Lib
