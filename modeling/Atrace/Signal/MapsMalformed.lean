import Atrace.Signal.HexToInt

/-! `object_parse_mmap` on any text at all. -/
namespace Atrace.Signal

/-- 1 to 17 hexadecimal digits: one more than fits into the result, as `hex_to_int` counts. -/
def HexWord (d : List UInt8) : Prop :=
  d ≠ [] ∧ d.length ≤ 17 ∧ ∀ c ∈ d, (hexVal c).isSome

/-- A word that `hex_to_int` gives a nonzero code for. -/
def NotHex (d : List UInt8) : Prop := d ≠ [] ∧ ¬ HexWord d

/-- The parts of a range in front of the first dash and behind it. -/
def startOf (w : List UInt8) : List UInt8 := w.takeWhile (· != chDash)

def stopOf (w : List UInt8) : List UInt8 := (w.dropWhile (· != chDash)).drop 1

def ReadRange (w : List UInt8) : Prop := HexWord (startOf w) ∧ HexWord (stopOf w)

def RefusedRange (w : List UInt8) : Prop :=
  NotHex (startOf w) ∨ (HexWord (startOf w) ∧ NotHex (stopOf w))

theorem not_refused_of_read {w : List UInt8} (h : ReadRange w) : ¬ RefusedRange w := by
  rintro (hr | hr)
  · exact hr.2 h.1
  · exact hr.2.2 h.2

/-- The texts that the parser gets through: lines of a range, five words ended by a blank and a
newline behind them, up to the end or to a range that it refuses. -/
inductive Readable : List UInt8 → Prop where
  | done : Readable []
  | refused {w r : List UInt8} (hw : chSpace ∉ w) (hrange : RefusedRange w) :
      Readable (w ++ chSpace :: r)
  | line {w perms off dev inode path r : List UInt8} (hw : chSpace ∉ w) (hrange : ReadRange w)
      (hperms : chSpace ∉ perms) (hoff : chSpace ∉ off) (hdev : chSpace ∉ dev)
      (hinode : chSpace ∉ inode) (hpath : chNewline ∉ path) (hr : Readable r) :
      Readable (w ++ chSpace :: (perms ++ chSpace :: (off ++ chSpace :: (dev ++ chSpace ::
        (inode ++ chSpace :: (path ++ chNewline :: r))))))

variable {c : UInt8} {s w d p r : List UInt8} {n : Nat}

theorem scanFor_word (h : c ∉ s) (r : List UInt8) : scanFor c (s ++ c :: r) = .ok s.length :=
  scanFor_append (fun b hb he => h (by rwa [← he])) r

/-- A scan that ends before the terminator has found its separator in the text. -/
theorem scanFor_text (hc : c ≠ 0) (h : scanFor c (s ++ [0]) = .ok n) :
    ∃ w r, s = w ++ c :: r ∧ c ∉ w ∧ n = w.length := by
  induction s generalizing n with
  | nil => simp [scanFor, Ne.symm hc] at h
  | cons b s ih =>
    rw [List.cons_append, scanFor] at h
    split at h
    · rename_i hb
      cases h
      exact ⟨[], s, by rw [hb, List.nil_append], List.not_mem_nil, rfl⟩
    · rename_i hb
      split at h
      · rename_i m hm
        cases h
        obtain ⟨w, r, rfl, hw, rfl⟩ := ih hm
        exact ⟨b :: w, r, rfl, by simp [Ne.symm hb, hw], rfl⟩
      · cases h

/-- What `hex_to_int` does with a word: the assertion is about its length, and the nonzero codes
are for the words that are too long or not hexadecimal. -/
inductive HexResult (d : List UInt8) : Except Fault (Option (BitVec 64)) → Prop where
  | empty (h : d = []) : HexResult d (.error .assertion)
  | read (h : HexWord d) (v : BitVec 64) : HexResult d (.ok (some v))
  | refused (h : NotHex d) : HexResult d (.ok none)

theorem hexToInt_word (p d r : List UInt8) {l : Int} (hl : l = p.length + d.length - 1) :
    HexResult d (hexToInt (p ++ (d ++ r)) p.length l) := by
  by_cases hne : d = []
  · have hlt : l < p.length := by
      rw [hl, hne, List.length_nil]
      omega
    rw [hexToInt, if_pos hlt]
    exact .empty hne
  have hpos := List.length_pos_iff.mpr hne
  rw [hexToInt_eq_ptr _ _ _ 0]
  by_cases hlong : 17 < d.length
  · rw [hexToIntPtr_long hl hlong]
    exact .refused ⟨hne, fun h => absurd h.2.1 (by omega)⟩
  by_cases hhex : ∀ c ∈ d, (hexVal c).isSome
  · rw [hexToIntPtr_hex hl hpos (by omega) hhex]
    exact .read ⟨hne, by omega, hhex⟩ _
  · rw [hexToIntPtr_notHex hl hpos (by omega) hhex]
    exact .refused ⟨hne, fun h => hhex h.2.2⟩

/-- The word is its two parts with the dash between them, or has no dash. -/
theorem range_parts (w : List UInt8) :
    (w = startOf w ++ chDash :: stopOf w ∨ (w = startOf w ∧ stopOf w = [])) ∧
      w.findIdx (· == chDash) = (startOf w).length := by
  induction w with
  | nil => exact ⟨Or.inr ⟨rfl, rfl⟩, rfl⟩
  | cons c w ih =>
    by_cases hc : c = chDash
    · subst hc
      have hstart : startOf (chDash :: w) = [] := by simp [startOf]
      have hstop : stopOf (chDash :: w) = w := by simp [stopOf]
      rw [hstart, hstop]
      exact ⟨Or.inl rfl, by simp [List.findIdx_cons]⟩
    · have hstart : startOf (c :: w) = c :: startOf w := by simp [startOf, hc]
      have hstop : stopOf (c :: w) = stopOf w := by simp [stopOf, hc]
      rw [hstart, hstop, List.findIdx_cons]
      refine ⟨?_, ?_⟩
      · rcases ih.1 with h | ⟨h, hnil⟩
        · exact Or.inl (congrArg (c :: ·) h)
        · exact Or.inr ⟨congrArg (c :: ·) h, hnil⟩
      · simp [beq_eq_false_iff_ne.mpr hc, ih.2]

theorem hexToInt_start (w : List UInt8) :
    HexResult (startOf w) (hexToInt (w ++ [0]) 0 ((startOf w).length - 1 : Int)) := by
  obtain ⟨r, hr⟩ : ∃ r, w ++ [0] = [] ++ (startOf w ++ r) := by
    rcases (range_parts w).1 with h | ⟨h, _⟩
    · refine ⟨chDash :: (stopOf w ++ [0]), ?_⟩
      conv_lhs => rw [h]
      simp
    · exact ⟨[0], by rw [← h, List.nil_append]⟩
  rw [hr]
  exact hexToInt_word [] (startOf w) r (by simp)

theorem hexToInt_stop (w : List UInt8) :
    HexResult (stopOf w)
      (hexToInt (w ++ [0]) ((startOf w).length + 1) (w.length - 1 : Int)) := by
  rcases (range_parts w).1 with h | ⟨h, hnil⟩
  · have hw : w ++ [0] = (startOf w ++ [chDash]) ++ (stopOf w ++ [0]) := by
      conv_lhs => rw [h]
      simp
    have hlen : (startOf w ++ [chDash]).length = (startOf w).length + 1 := by simp
    have hl : (w.length - 1 : Int) = (startOf w ++ [chDash]).length + (stopOf w).length - 1 := by
      conv_lhs => rw [h]
      simp
      omega
    rw [hw, ← hlen]
    exact hexToInt_word _ _ _ hl
  · rw [hexToInt, if_pos (by rw [← h]; omega)]
    exact .empty hnil

/-- `parse_mmap_range` up to the two results of `hex_to_int`. -/
theorem parseMmapRange_hex (hw : chSpace ∉ w) (hw0 : 0 ∉ w) (r : List UInt8) :
    parseMmapRange (w ++ chSpace :: r) =
      (hexToInt (w ++ [0]) 0 ((startOf w).length - 1 : Int) >>= fun start? =>
        start?.elim (.ok none) fun start =>
          (hexToInt (w ++ [0]) ((startOf w).length + 1) (w.length - 1 : Int)).map
            (Option.map (r, start, ·))) := by
  have hdup : strndup (w ++ chSpace :: r) w.length = w :=
    strndup_append (fun b hb he => hw0 (he ▸ hb)) _
  rw [parseMmapRange, scanFor_word hw]
  simp only [ok_bind, hdup, List.take_left, (range_parts w).2, drop_append_succ]
  rcases hexToInt (w ++ [0]) 0 ((startOf w).length - 1 : Int) with f | _ | start
  · rfl
  · rfl
  · rcases hexToInt (w ++ [0]) ((startOf w).length + 1) (w.length - 1 : Int) with f | _ | stop <;>
      rfl

/-- What `parse_mmap_range` does with a word of a text. -/
inductive RangeResult (w : List UInt8) : Prop where
  | read (h : ReadRange w) {start stop : BitVec 64}
      (hrun : ∀ r, parseMmapRange (w ++ chSpace :: r) = .ok (some (r, start, stop)))
  | refused (h : RefusedRange w)
      (hrun : ∀ r, parseMmapRange (w ++ chSpace :: r) = .ok none)
  | fails (hread : ¬ ReadRange w) (hrefused : ¬ RefusedRange w)
      (hrun : ∀ r, parseMmapRange (w ++ chSpace :: r) = .error .assertion)

theorem parseMmapRange_word (hw : chSpace ∉ w) (hw0 : 0 ∉ w) : RangeResult w := by
  have hrun := parseMmapRange_hex hw hw0
  have hstart := hexToInt_start w
  have hstop := hexToInt_stop w
  generalize hexToInt (w ++ [0]) 0 ((startOf w).length - 1 : Int) = x at hrun hstart
  generalize hexToInt (w ++ [0]) ((startOf w).length + 1) (w.length - 1 : Int) = y at hrun hstop
  cases hstart with
  | empty h =>
    refine .fails (fun hr => hr.1.1 h) ?_ hrun
    rintro (hr | hr)
    · exact hr.1 h
    · exact hr.1.1 h
  | refused h => exact .refused (Or.inl h) hrun
  | read h v =>
    cases hstop with
    | empty h' =>
      refine .fails (fun hr => hr.2.1 h') ?_ hrun
      rintro (hr | hr)
      · exact hr.2 h
      · exact hr.2.1 h'
    | refused h' => exact .refused (Or.inr ⟨h, h'⟩) hrun
    | read h' v' => exact .read ⟨h, h'⟩ hrun

/-- The words that `parse_mmap_inode` runs over. -/
theorem parseMmapInode_shape {r : List UInt8 × BitVec 32} (h : parseMmapInode (s ++ [0]) = .ok r) :
    ∃ off dev inode t, s = off ++ chSpace :: (dev ++ chSpace :: (inode ++ chSpace :: t)) ∧
      chSpace ∉ off ∧ chSpace ∉ dev ∧ chSpace ∉ inode ∧
      r.1 = t.dropWhile (· == chSpace) ++ [0] := by
  obtain ⟨_, hscan, h⟩ := bind_ok h
  obtain ⟨off, s, rfl, hoff, rfl⟩ := scanFor_text (by decide) hscan
  rw [List.append_assoc, List.cons_append, drop_append_succ] at h
  obtain ⟨_, hscan, h⟩ := bind_ok h
  obtain ⟨dev, s, rfl, hdev, rfl⟩ := scanFor_text (by decide) hscan
  rw [List.append_assoc, List.cons_append, drop_append_succ] at h
  obtain ⟨_, hscan, h⟩ := bind_ok h
  obtain ⟨inode, t, rfl, hinode, rfl⟩ := scanFor_text (by decide) hscan
  obtain ⟨rest, hskip, h⟩ := bind_ok h
  rw [List.append_assoc, List.drop_left, skipSpaces_text (by decide),
    List.dropWhile_cons_of_pos (by simp)] at hskip
  cases hskip
  cases h
  exact ⟨off, dev, inode, t, rfl, hoff, hdev, hinode, rfl⟩

/-- The end of a line is looked for behind the blanks after the inode. -/
theorem newline_of_scan {t : List UInt8}
    (h : scanFor chNewline (t.dropWhile (· == chSpace) ++ [0]) = .ok n) :
    ∃ path rest, t = path ++ chNewline :: rest ∧ chNewline ∉ path := by
  obtain ⟨w, r, hw, _, _⟩ := scanFor_text (by decide) h
  have hmem : chNewline ∈ t.dropWhile (· == chSpace) := by simp [hw]
  exact List.eq_append_cons_of_mem ((List.dropWhile_sublist _).subset hmem)

/-- A line whose range is read has the words and separators that are looked for. -/
theorem parseMmapLine_words {t : List UInt8} {start stop : BitVec 64}
    {r : Option (List UInt8 × MmapLine)}
    (hrange : ∀ r, parseMmapRange (w ++ chSpace :: r) = .ok (some (r, start, stop)))
    (h : parseMmapLine (w ++ chSpace :: (t ++ [0])) = .ok r) :
    ∃ perms off dev inode path rest, t = perms ++ chSpace :: (off ++ chSpace ::
      (dev ++ chSpace :: (inode ++ chSpace :: (path ++ chNewline :: rest)))) ∧ chSpace ∉ perms ∧
      chSpace ∉ off ∧ chSpace ∉ dev ∧ chSpace ∉ inode ∧ chNewline ∉ path := by
  rw [parseMmapLine, hrange, ok_bind] at h
  obtain ⟨⟨_, attr⟩, hattr, hline⟩ := bind_ok h
  obtain ⟨_, hscan, hloop⟩ := bind_ok hattr
  obtain ⟨perms, t, rfl, hperms, rfl⟩ := scanFor_text (by decide) hscan
  obtain ⟨_, _, hdrop⟩ := bind_ok hloop
  rw [List.append_assoc, List.cons_append, drop_append_succ] at hdrop
  cases hdrop
  obtain ⟨⟨rest, number⟩, hinode, hend⟩ := bind_ok hline
  obtain ⟨off, dev, inode, t, rfl, hoff, hdev, hin, hrest⟩ := parseMmapInode_shape hinode
  obtain ⟨n, hscan⟩ : ∃ n, scanFor chNewline rest = .ok n := by
    dsimp only at hend
    split at hend
    · obtain ⟨_, hfile, _⟩ := bind_ok hend
      obtain ⟨n, hscan, _⟩ := bind_ok hfile
      exact ⟨n, hscan⟩
    · obtain ⟨n, hscan, _⟩ := bind_ok hend
      exact ⟨n, hscan⟩
  rw [show rest = _ from hrest] at hscan
  obtain ⟨path, rest, rfl, hpath⟩ := newline_of_scan hscan
  exact ⟨perms, off, dev, inode, path, rest, rfl, hperms, hoff, hdev, hin, hpath⟩

/-- Words without their separators, in a text without terminators, make up a line. -/
theorem parseMmapLine_separated {perms off dev inode path : List UInt8} {start stop : BitVec 64}
    (hrange : ∀ r, parseMmapRange (w ++ chSpace :: r) = .ok (some (r, start, stop)))
    (hperms : chSpace ∉ perms) (hoff : chSpace ∉ off) (hdev : chSpace ∉ dev)
    (hinode : chSpace ∉ inode) (hpath : chNewline ∉ path)
    (h0 : 0 ∉ w ++ chSpace :: (perms ++ chSpace :: (off ++ chSpace :: (dev ++ chSpace ::
      (inode ++ chSpace :: (path ++ chNewline :: r)))))) :
    0 ∉ r ∧ ∃ line, parseMmapLine (w ++ chSpace :: (perms ++ chSpace :: (off ++ chSpace ::
      (dev ++ chSpace :: (inode ++ chSpace :: (path ++ chNewline :: r))))) ++ [0]) =
        .ok (some (r ++ [0], line)) := by
  simp only [List.mem_append, List.mem_cons, not_or] at h0
  obtain ⟨_, _, hp0, _, _, _, _, _, hi0, _, ht0, _, hr0⟩ := h0
  have hline := parseMmapLine_text hrange (r := r ++ [0])
    (fun b hb => ⟨fun he => hperms (he ▸ hb), fun he => hp0 (he ▸ hb)⟩)
    (fun b hb he => hoff (he ▸ hb)) (fun b hb he => hdev (he ▸ hb))
    (fun b hb => ⟨fun he => hinode (he ▸ hb), fun he => hi0 (he ▸ hb)⟩)
    (fun b hb => ⟨fun he => hpath (he ▸ hb), fun he => ht0 (he ▸ hb)⟩)
  simp only [List.append_assoc, List.cons_append]
  exact ⟨hr0, _, hline⟩

/-- A line that is read or refused, and the rest of the text behind its newline. -/
theorem parseMmapLine_shape (h0 : 0 ∉ s) {r : Option (List UInt8 × MmapLine)}
    (h : parseMmapLine (s ++ [0]) = .ok r) :
    (r = none ∧ Readable s) ∨
      ∃ rest line, r = some (rest ++ [0], line) ∧ 0 ∉ rest ∧ (Readable rest → Readable s) := by
  obtain ⟨w, t, rfl, hw⟩ : ∃ w t, s = w ++ chSpace :: t ∧ chSpace ∉ w := by
    obtain ⟨_, hrange, _⟩ := bind_ok h
    obtain ⟨_, hscan, _⟩ := bind_ok hrange
    obtain ⟨w, t, hs, hw, _⟩ := scanFor_text (by decide) hscan
    exact ⟨w, t, hs, hw⟩
  have hw0 : 0 ∉ w := fun hmem => h0 (List.mem_append_left _ hmem)
  rw [List.append_assoc, List.cons_append] at h
  cases parseMmapRange_word hw hw0 with
  | fails _ _ hrange =>
    rw [parseMmapLine, hrange] at h
    cases h
  | refused hrefused hrange =>
    rw [parseMmapLine, hrange] at h
    cases h
    exact Or.inl ⟨rfl, .refused hw hrefused⟩
  | read hread hrange =>
    obtain ⟨perms, off, dev, inode, path, rest, rfl, hperms, hoff, hdev, hin, hpath⟩ :=
      parseMmapLine_words hrange h
    obtain ⟨hr0, line, hline⟩ := parseMmapLine_separated hrange hperms hoff hdev hin hpath h0
    rw [List.append_assoc, List.cons_append, h] at hline
    exact Or.inr ⟨rest, line, Except.ok.inj hline, hr0, .line hw hread hperms hoff hdev hin hpath⟩

variable {self : Addr} {objects objects' : List Object} {code : Int}

/-- A text with a blank in it is not at its end. -/
theorem not_at_end (w r : List UInt8) : (w ++ c :: r ++ [0]).length ≠ 1 := by
  simp only [List.length_append, List.length_cons, List.length_nil]
  omega

theorem returns_of_readable (h : Readable s) (h0 : 0 ∉ s) (objects : List Object) :
    ∃ objects' code, parseMmapLoop (addLine self) 1 objects (s ++ [0]) = .ok (objects', code) ∧ code ≤ 0 := by
  induction h generalizing objects with
  | done =>
    rw [parseMmapLoop]
    exact ⟨objects, 0, rfl, le_refl 0⟩
  | @refused w r hw hrefused =>
    have hw0 : 0 ∉ w := fun hmem => h0 (List.mem_append_left _ hmem)
    refine ⟨objects, -1, parseMmapLoop_null (not_at_end w r) ?_, by decide⟩
    rw [List.append_assoc, List.cons_append]
    cases parseMmapRange_word hw hw0 with
    | fails _ hnot _ => exact absurd hrefused hnot
    | refused _ hrange =>
      rw [parseMmapLine, hrange]
      rfl
    | read hread _ => exact absurd hrefused (not_refused_of_read hread)
  | @line w perms off dev inode path r hw hread hperms hoff hdev hin hpath hr ih =>
    have hw0 : 0 ∉ w := fun hmem => h0 (List.mem_append_left _ hmem)
    cases parseMmapRange_word hw hw0 with
    | fails hnot _ _ => exact absurd hread hnot
    | refused hrefused _ => exact absurd hrefused (not_refused_of_read hread)
    | read _ hrange =>
      obtain ⟨hr0, line, hline⟩ := parseMmapLine_separated hrange hperms hoff hdev hin hpath h0
      obtain ⟨objects', code, hrun, hcode⟩ := ih hr0 (addLine self objects line)
      refine ⟨objects', code, ?_, hcode⟩
      rw [parseMmapLoop_line (not_at_end w _) hline]
      exact hrun

theorem readable_of_returns (h0 : 0 ∉ s)
    (h : parseMmapLoop (addLine self) 1 objects (s ++ [0]) = .ok (objects', code)) : Readable s := by
  induction hn : s.length using Nat.strong_induction_on generalizing s objects with
  | _ n ih =>
    by_cases hend : (s ++ [0]).length = 1
    · have hnil : s = [] := by simpa using hend
      rw [hnil]
      exact .done
    · cases hline : parseMmapLine (s ++ [0]) with
      | error f =>
        rw [parseMmapLoop_fault hend hline] at h
        cases h
      | ok r =>
        rcases parseMmapLine_shape h0 hline with ⟨_, hs⟩ | ⟨rest, line, rfl, hr0, hs⟩
        · exact hs
        · rw [parseMmapLoop_line hend hline] at h
          have hlt := parseMmapLine_lt hline
          simp only [List.length_append, List.length_singleton] at hlt
          exact hs (ih rest.length (by omega) hr0 h rfl)

/-- On a string with its terminator `object_parse_mmap` stays inside and returns, with 0 or an
error, just when the string is one of those it gets through. -/
theorem objectParseMmap_returns_iff (self : Addr) (objects : List Object) (h0 : 0 ∉ s) :
    (∃ objects' code, objectParseMmap self objects (s ++ [0]) = .ok (objects', code) ∧ code ≤ 0) ↔
      Readable s := by
  have hrun : objectParseMmap self objects (s ++ [0]) =
      parseMmapLoop (addLine self) 1 objects (s ++ [0]) := by
    rw [objectParseMmap, scanFor_word h0 []]
    simp only [ok_bind, List.length_append, List.length_singleton, Nat.add_sub_cancel_left]
  rw [hrun]
  constructor
  · rintro ⟨objects', code, h, _⟩
    exact readable_of_returns h0 h
  · exact fun h => returns_of_readable h h0 objects

/-- `z ` -/
theorem objectParseMmap_returns_iff_refused :
    (∃ objects' code, objectParseMmap 0 [] ([0x7a, 0x20] ++ [0]) = .ok (objects', code) ∧
      code ≤ 0) ↔ Readable [0x7a, 0x20] :=
  objectParseMmap_returns_iff 0 [] (by decide)

/-- A text of one digit has no blank, and the scan for it leaves the string. -/
theorem missing_blank_overruns :
    objectParseMmap 0 [] ([0x31] ++ [0]) = .error .badAccess ∧
      ¬ ∃ objects' code, objectParseMmap 0 [] ([0x31] ++ [0]) = .ok (objects', code) ∧ code ≤ 0 := by
  have hline : parseMmapLine [0x31, 0] = .error .badAccess := rfl
  have hrun : objectParseMmap 0 [] ([0x31] ++ [0]) = .error .badAccess :=
    parseMmapLoop_fault (by decide) hline
  refine ⟨hrun, ?_⟩
  rintro ⟨_, _, h, _⟩
  cases hrun.symm.trans h

end Atrace.Signal
