import Atrace.Lib.LinkedTree

/-! Edits of linked trees: what a rotation, an unlinking and a replacement leave of the tree. -/
namespace Atrace.Lib.TreeLinks

open SearchTree TreePath

variable {ν κ : Type*} {name : κ → ν} {m m' : TreeLinks ν κ} {d e : Side} {x y : κ} {a b c : ν}
  {p q link link' : Option ν} {t u l r : BinaryTree κ} {f : Frame κ} {fs : List (Frame κ)} {k : κ}
  [DecidableEq ν]

def setRoot (m : TreeLinks ν κ) (link : Option ν) : TreeLinks ν κ := { m with root := link }

def setChild (m : TreeLinks ν κ) (d : Side) (a : ν) (link : Option ν) : TreeLinks ν κ :=
  { m with child := fun e b => if e = d ∧ b = a then link else m.child e b }

def setParent (m : TreeLinks ν κ) (a : ν) (p : Option ν) : TreeLinks ν κ :=
  { m with parent := fun b => if b = a then p else m.parent b }

def setLabel (m : TreeLinks ν κ) (a : ν) (k : κ) : TreeLinks ν κ :=
  { m with label := fun b => if b = a then k else m.label b }

/-- Set the parent of a node, if there is one. -/
def reparent (m : TreeLinks ν κ) (c p : Option ν) : TreeLinks ν κ :=
  match c with
  | none => m
  | some a => m.setParent a p

/-- Put `link` in the place of the child `a` of `p`, or of the root; side `d` is tried first. -/
def replaceChild (m : TreeLinks ν κ) (d : Side) (p : Option ν) (a : ν) (link : Option ν) :
    TreeLinks ν κ :=
  match p with
  | none => m.setRoot link
  | some b =>
    if m.child d b = some a then m.setChild d b link else m.setChild d.other b link

/-- Lift the child `b` of `a` on the side other than `d` over `a`. -/
def rotate (m : TreeLinks ν κ) (d : Side) (a b : ν) : TreeLinks ν κ :=
  (((((m.setChild d.other a (m.child d b)).reparent (m.child d b) (some a)).setChild d b
    (some a)).setParent b (m.parent a)).replaceChild d (m.parent a) a (some b)).setParent a (some b)

omit [DecidableEq ν] in
@[simp] theorem setRoot_root : (m.setRoot link).root = link := rfl

omit [DecidableEq ν] in
@[simp] theorem setRoot_child : (m.setRoot link).child = m.child := rfl

omit [DecidableEq ν] in
@[simp] theorem setRoot_parent : (m.setRoot link).parent = m.parent := rfl

omit [DecidableEq ν] in
@[simp] theorem setRoot_label : (m.setRoot link).label = m.label := rfl

@[simp] theorem setChild_root : (m.setChild d a link).root = m.root := rfl

@[simp] theorem setChild_child : (m.setChild d a link).child e b =
    if e = d ∧ b = a then link else m.child e b := rfl

@[simp] theorem setChild_parent : (m.setChild d a link).parent = m.parent := rfl

@[simp] theorem setChild_label : (m.setChild d a link).label = m.label := rfl

@[simp] theorem setParent_root : (m.setParent a p).root = m.root := rfl

@[simp] theorem setParent_child : (m.setParent a p).child = m.child := rfl

@[simp] theorem setParent_parent : (m.setParent a p).parent b =
    if b = a then p else m.parent b := rfl

@[simp] theorem setParent_label : (m.setParent a p).label = m.label := rfl

@[simp] theorem setLabel_root : (m.setLabel a k).root = m.root := rfl

@[simp] theorem setLabel_child : (m.setLabel a k).child = m.child := rfl

@[simp] theorem setLabel_parent : (m.setLabel a k).parent = m.parent := rfl

@[simp] theorem setLabel_label : (m.setLabel a k).label b =
    if b = a then k else m.label b := rfl

@[simp] theorem reparent_none : m.reparent none p = m := rfl

@[simp] theorem reparent_some : m.reparent (some a) p = m.setParent a p := rfl

@[simp] theorem reparent_root : (m.reparent link p).root = m.root := by cases link <;> rfl

@[simp] theorem reparent_child : (m.reparent link p).child = m.child := by cases link <;> rfl

@[simp] theorem reparent_label : (m.reparent link p).label = m.label := by cases link <;> rfl

@[simp] theorem reparent_parent : (m.reparent link p).parent b =
    if link = some b then p else m.parent b := by
  cases link with
  | none => simp
  | some a => simp [eq_comm]

@[simp] theorem replaceChild_parent : (m.replaceChild d p a link).parent = m.parent := by
  rcases p with _ | b
  · rfl
  · simp only [replaceChild]
    split <;> rfl

@[simp] theorem replaceChild_label : (m.replaceChild d p a link).label = m.label := by
  rcases p with _ | b
  · rfl
  · simp only [replaceChild]
    split <;> rfl

theorem replaceChild_root :
    (m.replaceChild d p a link).root = if p = none then link else m.root := by
  rcases p with _ | b
  · rfl
  · simp only [replaceChild]
    split <;> rfl

theorem replaceChild_child (h : p ≠ some b) : (m.replaceChild d p a link).child e b = m.child e b := by
  rcases p with _ | b'
  · rfl
  · have hb : b ≠ b' := fun hb => h (by rw [hb])
    simp only [replaceChild]
    split <;> simp [hb]

/-- A new child in the place of `a` is a new link at the end of the path. -/
theorem Around.replaceChild (h : m.Around name fs (some a)) (ha : a ∉ pathNames name fs)
    (hnodup : (pathNames name fs).Nodup) :
    (m.replaceChild d (headName name fs) a link).Around name fs link := by
  apply h.change hnodup
  · cases fs with
    | nil => rfl
    | cons f fs =>
      simp only [TreeLinks.replaceChild, headName]
      split <;> simp
  · simp
  · exact fun b _ hb e => replaceChild_child hb
  · rintro f gs rfl
    obtain ⟨_, _, hchild, hsib, _, _⟩ := h
    have hne : m.child f.side.other (name f.node) ≠ some a := by
      rw [hsib]
      intro he
      simp [pathNames, rootName_mem he] at ha
    by_cases hd : f.side = d
    · subst hd
      simp [TreeLinks.replaceChild, hchild]
    · have hd' : f.side.other = d := by rw [Side.eq_other_of_ne hd, Side.other_other]
      subst hd'
      simp [TreeLinks.replaceChild, hne]

/-- Another label on the same node. -/
theorem Shape.setLabel (h : m.Shape name fs (.node x l r)) (hy : name y = name x) :
    (m.setLabel (name x) y).Shape name fs (.node y l r) := by
  obtain ⟨around, ⟨_, h2, h3, h4, hl, hr⟩, nodup⟩ := h
  have hfacts := nodup
  simp only [names_node, List.nodup_append, List.nodup_cons, List.mem_append, List.mem_cons]
    at hfacts
  refine ⟨?_, ?_, by simpa [hy] using nodup⟩
  · simp only [rootName_node, hy] at around ⊢
    apply Around.congr around
    · rfl
    intro a ha
    have hax : a ≠ name x := fun he => hfacts.2.2 a (by simp [he]) a ha rfl
    simp [SameAt, hax]
  · refine ⟨by simp [hy], by simpa [hy] using h2, by simpa [hy] using h3, by simpa [hy] using h4,
      ?_, ?_⟩
    · rw [hy]
      apply hl.congr
      intro a ha
      have hax : a ≠ name x := hfacts.1.2.2 a ha _ (Or.inl rfl)
      simp [SameAt, hax]
    · rw [hy]
      apply hr.congr
      intro a ha
      have hax : a ≠ name x := fun he => hfacts.1.2.1.1 (he ▸ ha)
      simp [SameAt, hax]

theorem Shape.rotate {v : BinaryTree κ} (h : m.Shape name fs (build d x t (build d y u v))) :
    (m.rotate d (name x) (name y)).Shape name fs (build d y (build d x t u) v) := by
  obtain ⟨around, hangs, nodup⟩ := h
  obtain ⟨hx, hxp, hxt, hxy, ht, hyuv⟩ := hangs_build.mp hangs
  obtain ⟨hy, hyp, hyu, hyv, hu, hv⟩ := hangs_build.mp hyuv
  simp only [rootName_build] at around hxy
  have hfacts := nodup
  simp only [List.nodup_append, nodup_names_build, List.nodup_cons, mem_names_build,
    List.mem_append, not_or] at hfacts
  obtain ⟨⟨⟨hxt', hxy', hxu', hxv'⟩, htn, ⟨⟨hyu', hyv'⟩, hun, hvn, huv⟩, htyuv⟩, hpn, hpath⟩ :=
    hfacts
  have hyx' : name y ≠ name x := fun he => hxy' he.symm
  have hxp' : name x ∉ pathNames name fs := fun hmem => hpath _ (Or.inl rfl) _ hmem rfl
  have hhead : ∀ a, a = name x ∨ a ∈ names name t ∨ a = name y ∨ a ∈ names name u ∨
      a ∈ names name v → headName name fs ≠ some a :=
    fun a ha he => hpath a ha a (headName_mem he) rfl
  have hroot : ∀ a, a ∉ names name u → rootName name u ≠ some a :=
    fun a ha he => ha (rootName_mem he)
  obtain ⟨m', hm', hm⟩ : ∃ m', m' = (((m.setChild d.other (name x) (rootName name u)).reparent
        (rootName name u) (some (name x))).setChild d (name y) (some (name x))).setParent (name y)
        (headName name fs) ∧
      m.rotate d (name x) (name y) = (m'.replaceChild d (headName name fs) (name x)
        (some (name y))).setParent (name x) (some (name y)) :=
    ⟨_, rfl, by simp [TreeLinks.rotate, hyu, hxp]⟩
  rw [hm]
  refine ⟨?_, ?_, ?_⟩
  · have hsame : ∀ a ∈ pathNames name fs, a ≠ name x ∧ a ≠ name y ∧ rootName name u ≠ some a := by
      intro a ha
      exact ⟨fun he => hpath a (Or.inl he) a ha rfl,
        fun he => hpath a (Or.inr (Or.inr (Or.inl he))) a ha rfl,
        hroot a fun hu => hpath a (by simp [hu]) a ha rfl⟩
    have haround : m'.Around name fs (some (name x)) := by
      apply Around.congr around
      · simp [hm']
      · intro a ha
        obtain ⟨h1, h2, h3⟩ := hsame a ha
        simp [hm', SameAt, h1, h2, h3]
    have hlifted : (m'.replaceChild d (headName name fs) (name x) (some (name y))).Around name fs
        (some (name y)) := haround.replaceChild hxp' hpn
    apply Around.congr hlifted
    · rfl
    · intro a ha
      obtain ⟨h1, _, _⟩ := hsame a ha
      simp [SameAt, h1]
  · subst hm'
    refine hangs_build.mpr ⟨by simp [hy], by simp [hyx'], ?_, ?_, hangs_build.mpr
      ⟨by simp [hx], by simp, ?_, ?_, ?_, ?_⟩, ?_⟩
    · simp [replaceChild_child (hhead (name y) (by simp))]
    · simp [replaceChild_child (hhead (name y) (by simp)), hyx', hyv]
    · simp [replaceChild_child (hhead (name x) (by simp)), hxy', hxt]
    · simp [replaceChild_child (hhead (name x) (by simp)), hxy']
    · apply ht.congr
      intro a ha
      have hax : a ≠ name x := fun he => hxt' (he ▸ ha)
      have hay : a ≠ name y := htyuv a ha _ (Or.inl rfl)
      have hau : rootName name u ≠ some a :=
        hroot a fun hu => htyuv a ha _ (Or.inr (Or.inl hu)) rfl
      simp [SameAt, replaceChild_child (hhead a (by simp [ha])), hax, hay, hau]
    · have hne : ∀ a ∈ names name u, a ≠ name x ∧ a ≠ name y :=
        fun a ha => ⟨fun he => hxu' (he ▸ ha), fun he => hyu' (he ▸ ha)⟩
      apply hu.move hun
      · intro a ha
        obtain ⟨h1, h2⟩ := hne a (rootName_mem ha)
        simp [h1, h2, ha]
      · intro a ha har
        obtain ⟨h1, h2⟩ := hne a ha
        simp [h1, h2, har]
      · intro a ha
        obtain ⟨h1, h2⟩ := hne a ha
        simp [replaceChild_child (hhead a (by simp [ha])), h1, h2]
    · apply hv.congr
      intro a ha
      have hax : a ≠ name x := fun he => hxv' (he ▸ ha)
      have hay : a ≠ name y := fun he => hyv' (he ▸ ha)
      have hau : rootName name u ≠ some a := hroot a fun hu => huv a hu a ha rfl
      simp [SameAt, replaceChild_child (hhead a (by simp [ha])), hax, hay, hau]
  · have hsame : names name (build d y (build d x t u) v) =
        names name (build d x t (build d y u v)) := by
      cases d <;> simp
    rwa [hsame]

/-- Put the only child of `a` in its place. -/
def splice (m : TreeLinks ν κ) (a : ν) (c : Option ν) : TreeLinks ν κ :=
  (m.reparent c (m.parent a)).replaceChild .left (m.parent a) a c

theorem Shape.splice (h : m.Shape name fs (build d x .nil u)) :
    (m.splice (name x) (rootName name u)).Shape name fs u := by
  obtain ⟨around, hangs, nodup⟩ := h
  obtain ⟨_, hxp, _, _, _, hu⟩ := hangs_build.mp hangs
  simp only [rootName_build] at around
  simp only [List.nodup_append, nodup_names_build, List.nodup_cons, mem_names_build,
    names_nil, List.nil_append] at nodup
  obtain ⟨⟨hxu, hun⟩, hpn, hpath⟩ := nodup
  have hxp' : name x ∉ pathNames name fs := fun hmem => hpath _ (Or.inl rfl) _ hmem rfl
  rw [TreeLinks.splice, hxp]
  refine ⟨?_, ?_, ?_⟩
  · have haround : (m.reparent (rootName name u) (headName name fs)).Around name fs
        (some (name x)) := by
      apply Around.congr around
      · simp
      · intro a ha
        have hau : rootName name u ≠ some a :=
          fun hu => hpath a (Or.inr (Or.inr (rootName_mem hu))) a ha rfl
        simp [SameAt, hau]
    exact haround.replaceChild hxp' hpn
  · apply hu.move hun
    · intro a ha
      simp [ha]
    · intro a ha har
      simp [har]
    · intro a ha
      have hhead : headName name fs ≠ some a :=
        fun he => hpath a (Or.inr (Or.inr ha)) a (headName_mem he) rfl
      simp [replaceChild_child hhead]
  · refine List.nodup_append.mpr ⟨hun, hpn, ?_⟩
    exact fun a ha b hb => hpath a (Or.inr (Or.inr ha)) b hb

/-- Give the node `b`, with the label `k`, the links of `a`. -/
def copyNode (m : TreeLinks ν κ) (a b : ν) (k : κ) : TreeLinks ν κ :=
  (((m.setParent b (m.parent a)).setChild .left b (m.child .left a)).setChild .right b
    (m.child .right a)).setLabel b k

/-- Put the node `b`, with the label `k`, in the place of `a`. -/
def replaceNode (m : TreeLinks ν κ) (a b : ν) (k : κ) : TreeLinks ν κ :=
  (((m.replaceChild .left (m.parent a) a (some b)).reparent (m.child .left a) (some b)).reparent
    (m.child .right a) (some b)).copyNode a b k

theorem Shape.replaceNode (h : m.Shape name fs (.node x l r))
    (hy : name y ∉ names name (.node x l r) ++ pathNames name fs) :
    (m.replaceNode (name x) (name y) y).Shape name fs (.node y l r) := by
  obtain ⟨around, ⟨_, hxp, hxl, hxr, hl, hr⟩, nodup⟩ := h
  simp only [rootName_node] at around
  simp only [names_node, List.nodup_append, List.nodup_cons, List.mem_append, List.mem_cons,
    not_or] at nodup hy
  obtain ⟨⟨hln, ⟨hxr', hrn⟩, hlr⟩, hpn, hpath⟩ := nodup
  obtain ⟨⟨hyl, hyx, hyr⟩, hyp⟩ := hy
  have hxl' : name x ∉ names name l := fun hx => hlr _ hx _ (Or.inl rfl) rfl
  have hxp' : name x ∉ pathNames name fs :=
    fun hmem => hpath _ (Or.inr (Or.inl rfl)) _ hmem rfl
  have hhead : ∀ a, a ∈ names name l ∨ a = name x ∨ a ∈ names name r →
      headName name fs ≠ some a :=
    fun a ha he => hpath a ha a (headName_mem he) rfl
  have hly : ∀ a ∈ names name l, a ≠ name y := fun a ha he => hyl (he ▸ ha)
  have hry : ∀ a ∈ names name r, a ≠ name y := fun a ha he => hyr (he ▸ ha)
  have hrootl : ∀ a, a ∉ names name l → rootName name l ≠ some a :=
    fun a ha he => ha (rootName_mem he)
  have hrootr : ∀ a, a ∉ names name r → rootName name r ≠ some a :=
    fun a ha he => ha (rootName_mem he)
  have hlifted : (m.replaceChild .left (headName name fs) (name x) (some (name y))).Around name fs
      (some (name y)) := around.replaceChild hxp' hpn
  rw [TreeLinks.replaceNode, copyNode, hxp, hxl, hxr]
  refine ⟨?_, ⟨?_, ?_, ?_, ?_, ?_, ?_⟩, ?_⟩
  · apply Around.congr hlifted
    · simp
    · intro a ha
      have hay : a ≠ name y := fun he => hyp (he ▸ ha)
      have hal : rootName name l ≠ some a :=
        fun hl => hpath a (Or.inl (rootName_mem hl)) a ha rfl
      have har : rootName name r ≠ some a :=
        fun hr => hpath a (Or.inr (Or.inr (rootName_mem hr))) a ha rfl
      simp [SameAt, hay, hal, har]
  · simp
  · simp [hrootl _ hxl', hrootr _ hxr', hxp]
  · simp [replaceChild_child (hhead (name x) (by simp)), hxl]
  · simp [replaceChild_child (hhead (name x) (by simp)), hxr]
  · apply hl.move hln
    · intro a ha
      have har : rootName name r ≠ some a :=
        fun hr => hlr a (rootName_mem ha) a (Or.inr (rootName_mem hr)) rfl
      simp [hly a (rootName_mem ha), har, ha]
    · intro a ha hal
      have har : rootName name r ≠ some a :=
        fun hr => hlr a ha a (Or.inr (rootName_mem hr)) rfl
      simp [hly a ha, har, hal]
    · intro a ha
      simp [replaceChild_child (hhead a (Or.inl ha)), hly a ha]
  · apply hr.move hrn
    · intro a ha
      simp [hry a (rootName_mem ha), ha]
    · intro a ha har
      have hal : rootName name l ≠ some a :=
        fun hl => hlr a (rootName_mem hl) a (Or.inr ha) rfl
      simp [hry a ha, har, hal]
    · intro a ha
      simp [replaceChild_child (hhead a (Or.inr (Or.inr ha))), hry a ha]
  · simp only [names_node, List.nodup_append, List.nodup_cons, List.mem_append, List.mem_cons]
    refine ⟨⟨hln, ⟨hyr, hrn⟩, ?_⟩, hpn, ?_⟩
    · rintro a ha b (rfl | hb)
      · exact hly a ha
      · exact hlr a ha b (Or.inr hb)
    · rintro a (ha | rfl | ha) b hb
      · exact hpath a (Or.inl ha) b hb
      · exact fun he => hyp (he ▸ hb)
      · exact hpath a (Or.inr (Or.inr ha)) b hb

/-- Put `b`, the leftmost node below the right child of `a`, in the place of `a`, and the right
child of `b` in the place of `b`. -/
def takePlace (m : TreeLinks ν κ) (a b : ν) (k : κ) : TreeLinks ν κ :=
  let m₁ := m.replaceChild .left (m.parent a) a (some b)
  let m₂ :=
    match m.parent b with
    | none => m₁
    | some q =>
      if q = a then m₁
      else (((m₁.reparent (m.child .right b) (some q)).setChild .left q (m.child .right b)).setChild
        .right b (m.child .right a)).reparent (m.child .right a) (some b)
  (((m₂.setParent b (m.parent a)).setLabel b k).setChild .left b (m.child .left a)).reparent
    (m.child .left a) (some b)

omit [DecidableEq ν] in
theorem Shape.congr (h : m.Shape name fs t) (hroot : m'.root = m.root)
    (hsame : ∀ a ∈ names name t ++ pathNames name fs, m.SameAt m' a) : m'.Shape name fs t :=
  ⟨h.around.congr hroot fun a ha => hsame a (List.mem_append_right _ ha),
    h.hangs.congr fun a ha => hsame a (List.mem_append_left _ ha), h.nodup⟩

theorem replaceChild_child_eq : (m.replaceChild d p a link).child e b =
    if p = some b ∧ e = (if m.child d b = some a then d else d.other) then link
    else m.child e b := by
  rcases p with _ | c
  · simp [TreeLinks.replaceChild]
  · by_cases hb : b = c
    · subst hb
      simp only [TreeLinks.replaceChild, true_and]
      split <;> simp
    · rw [replaceChild_child (by simpa using fun he => hb he.symm)]
      have hc : c ≠ b := fun he => hb he.symm
      simp [hc]

/-- Two memories agree on everything but the node `a`. -/
def SameBut (m m' : TreeLinks ν κ) (a : ν) : Prop :=
  m'.root = m.root ∧ ∀ c, c ≠ a → m.SameAt m' c

/-- Taking the place of `a` is leaving one's own and then replacing `a`, but for the links of `a`. -/
theorem takePlace_child {k : κ} (hp : m.parent a ≠ some a) (hpb : m.parent a ≠ some b)
    (hla : m.child .left a ≠ some a) (hlb : m.child .left a ≠ some b) (hb : m.parent b = some a)
    (hc : ∀ c, m.child .right b = some c → m.parent c = some b ∧ c ≠ a ∧ c ≠ b ∧
      m.child .left a ≠ some c) :
    ((m.splice b (m.child .right b)).replaceNode a b k).SameBut (m.takePlace a b k) a := by
  have hra : m.child .right b ≠ some a := fun he => (hc a he).2.1 rfl
  refine ⟨?_, fun c hca => ⟨?_, ?_, fun d => ?_⟩⟩
  · simp [takePlace, TreeLinks.splice, TreeLinks.replaceNode, copyNode, hb, replaceChild_root, hra]
  · simp [takePlace, TreeLinks.splice, TreeLinks.replaceNode, copyNode, hb]
  · simp [takePlace, TreeLinks.splice, TreeLinks.replaceNode, copyNode, hb, replaceChild_child_eq,
      hla, hlb, hra, Side.other]
    grind
  · have hac : a ≠ c := fun he => hca he.symm
    simp [takePlace, TreeLinks.splice, TreeLinks.replaceNode, copyNode, hb, replaceChild_child_eq,
      hla, hlb, hra, hp, Side.other, hac]
    grind

/-- The same where `b` is further down, the left child of `q`. -/
theorem takePlace_below {k : κ} {q : ν} (hp : m.parent a ≠ some a) (hpq : m.parent a ≠ some q)
    (hla : m.child .left a ≠ some a) (hlb : m.child .left a ≠ some b)
    (hb : m.parent b = some q) (hqa : q ≠ a) (hqb : m.child .left q = some b)
    (hra : m.child .right a ≠ some a)
    (hlr : ∀ c, m.child .right a = some c → m.child .left a ≠ some c)
    (hc : ∀ c, m.child .right b = some c → c ≠ a ∧ c ≠ b ∧ m.child .left a ≠ some c ∧
      m.child .right a ≠ some c) :
    ((m.splice b (m.child .right b)).replaceNode a b k).SameBut (m.takePlace a b k) a := by
  have hbra : m.child .right b ≠ some a := fun he => (hc a he).1 rfl
  have hbrb : m.child .right b ≠ some b := fun he => (hc b he).2.1 rfl
  refine ⟨?_, fun c hca => ⟨?_, ?_, fun d => ?_⟩⟩
  · simp [takePlace, TreeLinks.splice, TreeLinks.replaceNode, copyNode, hb, replaceChild_root, hbra,
      hqa]
  · simp [takePlace, TreeLinks.splice, TreeLinks.replaceNode, copyNode, hb, hqa]
  · simp [takePlace, TreeLinks.splice, TreeLinks.replaceNode, copyNode, hb, replaceChild_child_eq,
      hla, hlb, hbra, Side.other, hqa]
    grind
  · simp [takePlace, TreeLinks.splice, TreeLinks.replaceNode, copyNode, hb, replaceChild_child_eq,
      hla, hlb, hbra, hp, Side.other, hqa]
    grind

theorem Shape.takePlace {s : κ} {gs : List (Frame κ)}
    (h : m.Shape name (gs ++ ⟨.right, x, l⟩ :: fs) (.node s .nil u))
    (hgs : ∀ f ∈ gs, f.side = .left) (hy : name y = name s) :
    (m.takePlace (name x) (name s) y).Shape name (gs ++ ⟨.right, y, l⟩ :: fs) u := by
  have hwhole : m.Shape name fs (.node x l (plug gs (.node s .nil u))) := by
    have hrep := represents_plug.mpr h
    rw [plug_append, plug_cons] at hrep
    exact represents_plug.mp hrep
  have hspliced : (m.splice (name s) (rootName name u)).Shape name fs
      (.node x l (plug gs u)) := by
    have hrep := represents_plug.mpr (Shape.splice (d := .left) h)
    rw [plug_append, plug_cons] at hrep
    exact represents_plug.mp hrep
  obtain ⟨_, hsp, hsl, hsr, _, hu⟩ := h.hangs
  obtain ⟨_, hxp, hxl, hxr, _, hR⟩ := hwhole.hangs
  have hnodup := hwhole.nodup
  simp only [names_node, List.nodup_append, List.nodup_cons, List.mem_append, List.mem_cons,
    mem_names_plug, names_nil, List.nil_append, names_plug_perm.nodup_iff] at hnodup
  obtain ⟨⟨_, ⟨hxn, ⟨hsu, _⟩, _, hsg⟩, hln⟩, _, hpath⟩ := hnodup
  have hmem : ∀ {t : BinaryTree κ} {b : ν}, b ∉ names name t → rootName name t ≠ some b :=
    fun hb he => hb (rootName_mem he)
  have hhead : ∀ b, b ∉ pathNames name fs → m.parent (name x) ≠ some b := by
    intro b hb he
    exact hb (headName_mem (hxp.symm.trans he))
  have hreplaced : ((m.splice (name s) (rootName name u)).replaceNode (name x) (name s) y).Shape
      name fs (.node y l (plug gs u)) := by
    rw [← hy] at hspliced ⊢
    apply hspliced.replaceNode
    simp only [names_node, List.mem_append, List.mem_cons, mem_names_plug, hy]
    grind
  have hmoved : (m.takePlace (name x) (name s) y).Shape name fs (.node y l (plug gs u)) := by
    rw [← hsr] at hreplaced
    have hsame : ((m.splice (name s) (m.child .right (name s))).replaceNode (name x) (name s)
        y).SameBut (m.takePlace (name x) (name s) y) (name x) := by
      cases gs with
      | nil =>
        refine takePlace_child (hhead _ (by grind)) (hhead _ (by grind)) (hxl ▸ hmem (by grind))
          (hxl ▸ hmem (by grind)) hsp ?_
        intro c hc
        have hcu : c ∈ names name u := rootName_mem (hsr ▸ hc)
        exact ⟨hu.parent_root (hsr ▸ hc), by grind, by grind, hxl ▸ hmem (by grind)⟩
      | cons f gs =>
        have hroot : ∀ b, b ∉ pathNames name (f :: gs) → m.child .right (name x) ≠ some b := by
          intro b hb he
          rcases rootName_plug (hxr.symm.trans he) with ⟨hnil, _⟩ | hmem
          · cases hnil
          · exact hb hmem
        have hf : name f.node ∈ pathNames name (f :: gs) := by simp [pathNames]
        have hleft : m.child .left (name f.node) = some (name s) := by
          rw [← hgs f List.mem_cons_self]
          exact h.around.2.2.1
        refine takePlace_below (hhead _ (by grind)) (hhead _ (by grind)) (hxl ▸ hmem (by grind))
          (hxl ▸ hmem (by grind)) hsp (by grind) hleft (hroot _ (by grind)) ?_ ?_
        · intro c hc hlc
          have hcl : c ∈ names name l := rootName_mem (hxl ▸ hlc)
          exact hroot c (by grind) hc
        · intro c hc
          have hcu : c ∈ names name u := rootName_mem (hsr ▸ hc)
          exact ⟨by grind, by grind, hxl ▸ hmem (by grind), hroot c (by grind)⟩
    apply hreplaced.congr hsame.1
    intro c hc
    apply hsame.2
    simp only [names_node, List.mem_append, List.mem_cons, mem_names_plug, hy] at hc
    grind
  apply represents_plug.mp
  rw [plug_append, plug_cons]
  exact represents_plug.mpr hmoved

/-- Where the link to the subtree at the end of a path is kept. -/
def headLink (name : κ → ν) : List (Frame κ) → Option (Side × ν)
  | [] => none
  | f :: _ => some (f.side, name f.node)

omit [DecidableEq ν] in
@[simp] theorem headLink_nil : headLink name ([] : List (Frame κ)) = none := rfl

omit [DecidableEq ν] in
@[simp] theorem headLink_cons : headLink name (f :: fs) = some (f.side, name f.node) := rfl

def setLink (m : TreeLinks ν κ) (at_ : Option (Side × ν)) (link : Option ν) : TreeLinks ν κ :=
  match at_ with
  | none => m.setRoot link
  | some (d, a) => m.setChild d a link

/-- Make `a` a leaf below `p` and store it in a link. -/
def linkLeaf (m : TreeLinks ν κ) (a : ν) (p : Option ν) (at_ : Option (Side × ν)) (k : κ) :
    TreeLinks ν κ :=
  ((((m.setParent a p).setChild .left a none).setChild .right a none).setLabel a k).setLink at_
    (some a)

theorem Shape.linkLeaf (h : m.Shape name fs .nil) (hx : name x ∉ pathNames name fs) :
    (m.linkLeaf (name x) (headName name fs) (headLink name fs) x).Shape name fs
      (.node x .nil .nil) := by
  obtain ⟨around, _, nodup⟩ := h
  simp only [names_nil, List.nil_append] at nodup
  refine ⟨?_, ?_, by simpa using ⟨hx, nodup⟩⟩
  · apply around.change nodup
    · cases fs <;> rfl
    · intro a ha
      have hax : a ≠ name x := fun he => hx (he ▸ ha)
      cases fs <;> simp [TreeLinks.linkLeaf, setLink, headLink, hax]
    · intro a ha hhead e
      have hax : a ≠ name x := fun he => hx (he ▸ ha)
      cases fs with
      | nil => simp [TreeLinks.linkLeaf, setLink, headLink, hax]
      | cons f fs =>
        have haf : a ≠ name f.node := fun he => hhead (by rw [he]; rfl)
        simp [TreeLinks.linkLeaf, setLink, headLink, hax, haf]
    · rintro f gs rfl
      have hfx : name f.node ≠ name x := fun he => hx (by simp [pathNames, he])
      simp [TreeLinks.linkLeaf, setLink, headLink, hfx]
  · cases fs with
    | nil => simp [Hangs, TreeLinks.linkLeaf, setLink, headLink]
    | cons f fs =>
      have hfx : name x ≠ name f.node := fun he => hx (by simp [pathNames, he])
      simp [Hangs, TreeLinks.linkLeaf, setLink, headLink, hfx]

omit [DecidableEq ν] in
theorem SameAt.trans {m₀ : TreeLinks ν κ} (h : m₀.SameAt m a) (h' : m.SameAt m' a) :
    m₀.SameAt m' a :=
  ⟨h'.1.trans h.1, h'.2.1.trans h.2.1, fun d => (h'.2.2 d).trans (h.2.2 d)⟩

theorem rotate_same (ha : c ≠ a) (hb : c ≠ b) (hchild : m.child d b ≠ some c)
    (hparent : m.parent a ≠ some c) : m.SameAt (m.rotate d a b) c := by
  simp [SameAt, TreeLinks.rotate, replaceChild_child hparent, ha, hb, hchild]

theorem splice_same (hlink : link ≠ some c) (hparent : m.parent a ≠ some c) :
    m.SameAt (m.splice a link) c := by
  simp [SameAt, TreeLinks.splice, replaceChild_child hparent, hlink]

theorem replaceNode_same (hb : c ≠ b) (hparent : m.parent a ≠ some c)
    (hl : m.child .left a ≠ some c) (hr : m.child .right a ≠ some c) :
    m.SameAt (m.replaceNode a b k) c := by
  simp [SameAt, TreeLinks.replaceNode, copyNode, replaceChild_child hparent, hb, hl, hr]

theorem takePlace_same (hb : c ≠ b) (hpa : m.parent a ≠ some c) (hpb : m.parent b ≠ some c)
    (hla : m.child .left a ≠ some c) (hra : m.child .right a ≠ some c)
    (hrb : m.child .right b ≠ some c) : m.SameAt (m.takePlace a b k) c := by
  cases hq : m.parent b with
  | none => simp [SameAt, TreeLinks.takePlace, replaceChild_child hpa, hb, hla, hq]
  | some q =>
    have hqc : c ≠ q := fun he => hpb (by rw [hq, he])
    by_cases hqa : q = a <;>
      simp [SameAt, TreeLinks.takePlace, replaceChild_child hpa, hb, hla, hra, hrb, hq, hqa, hqc]

theorem linkLeaf_same {at_ : Option (Side × ν)} (ha : c ≠ a) (hat : ∀ d, at_ ≠ some (d, c)) :
    m.SameAt (m.linkLeaf a p at_ k) c := by
  rcases at_ with _ | ⟨d, b⟩
  · simp [SameAt, TreeLinks.linkLeaf, setLink, ha]
  · have hb : c ≠ b := fun he => hat d (by rw [he])
    simp [SameAt, TreeLinks.linkLeaf, setLink, ha, hb]

/-- The memory that edits started from, and the nodes that they may change. -/
structure Footprint (ν κ : Type*) where
  origin : TreeLinks ν κ
  nodes : Set ν

/-- The tree is in memory, and the memory is as it was off the nodes of the footprint. -/
structure Place (m : TreeLinks ν κ) (name : κ → ν) (F : Footprint ν κ) (fs : List (Frame κ))
    (t : BinaryTree κ) : Prop where
  shape : m.Shape name fs t
  inside : ∀ a ∈ names name t ++ pathNames name fs, a ∈ F.nodes
  outside : ∀ a ∉ F.nodes, F.origin.SameAt m a

namespace Place

variable {F : Footprint ν κ}

omit [DecidableEq ν] in
theorem cons : m.Place name F (f :: fs) t ↔
    m.Place name F fs (build f.side f.node t f.sibling) := by
  have hmem : (∀ a ∈ names name (build f.side f.node t f.sibling) ++ pathNames name fs,
      a ∈ F.nodes) ↔ ∀ a ∈ names name t ++ pathNames name (f :: fs), a ∈ F.nodes := by
    simp only [pathNames, List.mem_append, mem_names_build, List.mem_cons]
    constructor <;> intro h a ha <;> apply h <;> tauto
  constructor
  · rintro ⟨shape, inside, outside⟩
    exact ⟨shape_cons.mp shape, hmem.mpr inside, outside⟩
  · rintro ⟨shape, inside, outside⟩
    exact ⟨shape_cons.mpr shape, hmem.mp inside, outside⟩

omit [DecidableEq ν] in
theorem up (h : m.Place name F (⟨d, x, u⟩ :: fs) t) : m.Place name F fs (build d x t u) :=
  cons.mp h

omit [DecidableEq ν] in
theorem down (h : m.Place name F fs (build d x t u)) : m.Place name F (⟨d, x, u⟩ :: fs) t :=
  cons.mpr h

omit [DecidableEq ν] in
theorem downOther (h : m.Place name F fs (build d x t u)) :
    m.Place name F (⟨d.other, x, t⟩ :: fs) u := down (by rwa [build_other])

omit [DecidableEq ν] in
theorem upOther (h : m.Place name F (⟨d.other, x, t⟩ :: fs) u) :
    m.Place name F fs (build d x t u) := by
  rw [← build_other]
  exact h.up

omit [DecidableEq ν] in
theorem plug_iff : m.Place name F [] (plug fs t) ↔ m.Place name F fs t := by
  induction fs generalizing t with
  | nil => exact Iff.rfl
  | cons f fs ih => exact ih.trans cons.symm

omit [DecidableEq ν] in
/-- Any set of nodes that holds the tree may be the footprint of what follows. -/
theorem of_shape {S : Set ν} (h : m.Shape name fs t)
    (hS : ∀ a ∈ names name t ++ pathNames name fs, a ∈ S) : m.Place name ⟨m, S⟩ fs t :=
  ⟨h, hS, fun _ _ => ⟨rfl, rfl, fun _ => rfl⟩⟩

omit [DecidableEq ν] in
/-- A node off the footprint is none of the nodes of the tree. -/
theorem off (h : m.Place name F fs t) (ha : a ∉ F.nodes) :
    a ∉ names name t ∧ a ∉ pathNames name fs ∧ rootName name t ≠ some a ∧
      headName name fs ≠ some a := by
  have ht : a ∉ names name t := fun hm => ha (h.inside a (List.mem_append_left _ hm))
  have hp : a ∉ pathNames name fs := fun hm => ha (h.inside a (List.mem_append_right _ hm))
  exact ⟨ht, hp, fun hr => ht (rootName_mem hr), fun hh => hp (headName_mem hh)⟩

omit [DecidableEq ν] in
/-- An edit of the tree inside the footprint. -/
theorem edit (h : m.Place name F fs t) {gs : List (Frame κ)} (hshape : m'.Shape name gs u)
    (hnames : ∀ a ∈ names name u ++ pathNames name gs,
      a ∈ names name t ++ pathNames name fs)
    (hsame : ∀ a ∉ F.nodes, m.SameAt m' a) : m'.Place name F gs u :=
  ⟨hshape, fun a ha => h.inside a (hnames a ha), fun a ha => (h.outside a ha).trans (hsame a ha)⟩

theorem setLabel (h : m.Place name F fs (.node x l r)) (hy : name y = name x) :
    (m.setLabel (name x) y).Place name F fs (.node y l r) := by
  refine h.edit (h.shape.setLabel hy) (by simp [hy]) ?_
  intro a ha
  have hax : a ≠ name x := fun he => (h.off ha).1 (by simp [he])
  simp [SameAt, hax]

theorem rotate {v : BinaryTree κ} (h : m.Place name F fs (build d x t (build d y u v))) :
    (m.rotate d (name x) (name y)).Place name F fs (build d y (build d x t u) v) := by
  refine h.edit h.shape.rotate (by simp; tauto) ?_
  intro a ha
  obtain ⟨_, hxp, _, _, _, hyuv⟩ := hangs_build.mp h.shape.hangs
  obtain ⟨_, _, hyu, _, _, _⟩ := hangs_build.mp hyuv
  obtain ⟨hnames, _, _, hhead⟩ := h.off ha
  simp only [mem_names_build, not_or] at hnames
  refine rotate_same hnames.1 hnames.2.2.1 ?_ (hxp ▸ hhead)
  rw [hyu]
  exact fun he => hnames.2.2.2.1 (rootName_mem he)

theorem splice (h : m.Place name F fs (build d x .nil u)) :
    (m.splice (name x) (rootName name u)).Place name F fs u := by
  refine h.edit h.shape.splice (by simp; tauto) ?_
  intro a ha
  obtain ⟨_, hxp, _, _, _, _⟩ := hangs_build.mp h.shape.hangs
  obtain ⟨hnames, _, _, hhead⟩ := h.off ha
  exact splice_same (fun he => hnames (by simp [rootName_mem he])) (hxp ▸ hhead)

theorem takePlace {s : κ} {gs : List (Frame κ)}
    (h : m.Place name F (gs ++ ⟨.right, x, l⟩ :: fs) (.node s .nil u))
    (hgs : ∀ f ∈ gs, f.side = .left) (hy : name y = name s) :
    (m.takePlace (name x) (name s) y).Place name F (gs ++ ⟨.right, y, l⟩ :: fs) u := by
  refine h.edit (h.shape.takePlace hgs hy) ?_ ?_
  · simp only [pathNames_append, pathNames, names_node, names_nil, hy]
    intro a
    simp only [List.mem_append, List.mem_cons]
    tauto
  intro a ha
  have hwhole : m.Place name F fs (.node x l (plug gs (.node s .nil u))) := by
    have hrep := plug_iff.mpr h
    rw [plug_append, plug_cons] at hrep
    exact plug_iff.mp hrep
  obtain ⟨_, hsp, _, hsr, _, _⟩ := h.shape.hangs
  obtain ⟨_, hxp, hxl, hxr, _, _⟩ := hwhole.shape.hangs
  obtain ⟨hnames, _, _, hhead⟩ := h.off ha
  obtain ⟨hnames', _, _, hhead'⟩ := hwhole.off ha
  simp only [names_node, List.mem_append, List.mem_cons, not_or, names_nil] at hnames hnames'
  refine takePlace_same hnames.2.1 (hxp ▸ hhead') (hsp ▸ hhead) ?_ ?_ ?_
  · exact fun he => hnames'.1 (rootName_mem (hxl ▸ he))
  · exact fun he => hnames'.2.2 (rootName_mem (hxr ▸ he))
  · exact fun he => hnames.2.2 (rootName_mem (hsr ▸ he))

theorem replaceNode (h : m.Place name F fs (.node x l r)) (hF : name y ∈ F.nodes)
    (hy : name y ∉ names name (.node x l r) ++ pathNames name fs) :
    (m.replaceNode (name x) (name y) y).Place name F fs (.node y l r) := by
  obtain ⟨_, hxp, hxl, hxr, _, _⟩ := h.shape.hangs
  refine ⟨h.shape.replaceNode hy, ?_, ?_⟩
  · intro a ha
    have hmem : a = name y ∨ a ∈ names name (.node x l r) ++ pathNames name fs := by
      simp only [names_node, List.mem_append, List.mem_cons] at ha ⊢
      tauto
    rcases hmem with rfl | hmem
    · exact hF
    · exact h.inside a hmem
  · intro a ha
    obtain ⟨hnames, _, _, hhead⟩ := h.off ha
    simp only [names_node, List.mem_append, List.mem_cons, not_or] at hnames
    refine (h.outside a ha).trans (replaceNode_same ?_ (hxp ▸ hhead) ?_ ?_)
    · exact fun he => ha (he ▸ hF)
    · exact fun he => hnames.1 (rootName_mem (hxl ▸ he))
    · exact fun he => hnames.2.2 (rootName_mem (hxr ▸ he))

/-- A node of the footprint that is not in the tree may have any parent. -/
theorem setParent_of_notMem (h : m.Place name F fs t) (hF : a ∈ F.nodes)
    (ha : a ∉ names name t ++ pathNames name fs) : (m.setParent a p).Place name F fs t := by
  have hsame : ∀ c, c ≠ a → m.SameAt (m.setParent a p) c := fun c hc => by simp [SameAt, hc]
  refine h.edit (h.shape.congr rfl fun c hc => hsame c ?_) (fun _ hc => hc) fun c hc => hsame c ?_
  · rintro rfl
    exact ha hc
  · rintro rfl
    exact hc hF

theorem linkLeaf (h : m.Place name F fs .nil) (hF : name x ∈ F.nodes)
    (hx : name x ∉ pathNames name fs) :
    (m.linkLeaf (name x) (headName name fs) (headLink name fs) x).Place name F fs
      (.node x .nil .nil) := by
  refine ⟨h.shape.linkLeaf hx, ?_, ?_⟩
  · intro a ha
    simp only [names_node, names_nil, List.nil_append, List.singleton_append,
      List.mem_cons] at ha
    rcases ha with rfl | ha
    · exact hF
    · exact h.inside a ha
  · intro a ha
    refine (h.outside a ha).trans (linkLeaf_same (fun he => ha (he ▸ hF)) ?_)
    intro d hd
    cases fs with
    | nil => cases hd
    | cons f fs =>
      cases hd
      exact (h.off ha).2.1 (by simp [pathNames])

end Place

end Atrace.Lib.TreeLinks
