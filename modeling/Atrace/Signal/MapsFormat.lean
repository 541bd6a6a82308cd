import Mathlib.Data.List.Forall2
import Atrace.Signal.MapsParser

/-! The line format of `/proc/self/maps`, and what `object_parse_mmap` makes of well-formed text. -/
namespace Atrace.Signal

/-- The value of a hexadecimal digit of either case. -/
def hexVal (c : UInt8) : Option Nat :=
  if 0x30 ≤ c.toNat ∧ c.toNat ≤ 0x39 then some (c.toNat - 0x30)
  else if 0x61 ≤ c.toNat ∧ c.toNat ≤ 0x66 then some (c.toNat - 0x57)
  else if 0x41 ≤ c.toNat ∧ c.toNat ≤ 0x46 then some (c.toNat - 0x37)
  else none

/-- The number a run of hexadecimal digits denotes. -/
def hexValue (s : List UInt8) : Nat := s.foldl (fun n c => 16 * n + (hexVal c).getD 0) 0

/-- 1 to 16 hexadecimal digits. -/
structure HexField where
  digits : List UInt8
  nonempty : digits ≠ []
  short : digits.length ≤ 16
  hex : ∀ c ∈ digits, (hexVal c).isSome

def HexField.value (f : HexField) : BitVec 64 := BitVec.ofNat 64 (hexValue f.digits)

/-- A field without blanks, newlines or terminators. -/
structure PlainField where
  text : List UInt8
  plain : ∀ c ∈ text, c ≠ chSpace ∧ c ≠ chNewline ∧ c ≠ 0

/-- The decimal digits of a number. -/
def decimal (n : Nat) : List UInt8 := (Nat.toDigits 10 n).map Char.toUInt8

/-- One mapping, as the kernel prints it. -/
structure MapEntry where
  start : HexField
  stop : HexField
  perms : PlainField
  offset : PlainField
  dev : PlainField
  inode : Nat
  inode_lt : inode < 2 ^ 31
  padding : Nat
  path : List UInt8
  path_ok : ∀ c ∈ path, c ≠ chNewline ∧ c ≠ 0
  path_named : 0 < inode → path ≠ [] ∧ path.head? ≠ some chSpace

def MapEntry.render (e : MapEntry) : List UInt8 :=
  e.start.digits ++ chDash :: (e.stop.digits ++ chSpace :: (e.perms.text ++ chSpace ::
    (e.offset.text ++ chSpace :: (e.dev.text ++ chSpace :: (decimal e.inode ++ chSpace ::
      (List.replicate e.padding chSpace ++ (e.path ++ [chNewline])))))))

/-- The text of the mappings, with its terminator. -/
def renderMaps (es : List MapEntry) : List UInt8 := es.flatMap MapEntry.render ++ [0]

/-- `10000-11000 r-xp 0 1:1 1 /a` -/
def libraryEntry : MapEntry where
  start := ⟨[0x31, 0x30, 0x30, 0x30, 0x30], by decide, by decide, by simp [hexVal]⟩
  stop := ⟨[0x31, 0x31, 0x30, 0x30, 0x30], by decide, by decide, by simp [hexVal]⟩
  perms := ⟨[0x72, 0x2d, 0x78, 0x70], by simp [chSpace, chNewline]⟩
  offset := ⟨[0x30], by simp [chSpace, chNewline]⟩
  dev := ⟨[0x31, 0x3a, 0x31], by simp [chSpace, chNewline]⟩
  inode := 1
  inode_lt := by decide
  padding := 0
  path := [0x2f, 0x61]
  path_ok := by simp [chNewline]
  path_named := by decide

/-- `11000-12000 r-xp 0 1:1 1 /a`, which starts where `libraryEntry` ends. -/
def upperMapping : MapEntry :=
  { libraryEntry with
    start := libraryEntry.stop
    stop := ⟨[0x31, 0x32, 0x30, 0x30, 0x30], by decide, by decide, by simp [hexVal]⟩ }

/-- A mapping that calls for an object: file-backed and executable. -/
def MapEntry.Wanted (e : MapEntry) : Prop := 0 < e.inode ∧ 0x78 ∈ e.perms.text

instance (e : MapEntry) : Decidable e.Wanted := inferInstanceAs (Decidable (_ ∧ _))

def MapEntry.range (e : MapEntry) : Addr × Addr := (e.start.value, e.stop.value)

def Object.range (o : Object) : Addr × Addr := (o.textStart, o.textEnd)

/-- The wanted mappings whose range is neither in `seen` nor that of an earlier one of them. -/
def registered : List (Addr × Addr) → List MapEntry → List MapEntry
  | _, [] => []
  | seen, e :: es =>
    if e.Wanted ∧ e.range ∉ seen then e :: registered (seen ++ [e.range]) es
    else registered seen es

/-- An object carries the range, path and permission bits of a mapping. -/
structure Carries (o : Object) (e : MapEntry) : Prop where
  textStart : o.textStart = e.start.value
  textEnd : o.textEnd = e.stop.value
  fileName : o.fileName = e.path
  read : o.hasAttr .READ = decide (0x72 ∈ e.perms.text)
  write : o.hasAttr .WRITE = decide (0x77 ∈ e.perms.text)
  execute : o.hasAttr .EXECUTE = decide (0x78 ∈ e.perms.text)
  priv : o.hasAttr .PRIVATE = decide (0x70 ∈ e.perms.text)

variable {c : UInt8} {s r : List UInt8} {n : Nat}

theorem scanFor_append (h : ∀ b ∈ s, b ≠ c) (r : List UInt8) :
    scanFor c (s ++ c :: r) = .ok s.length := by
  induction s with
  | nil => simp [scanFor]
  | cons b bs ih =>
    have hb : b ≠ c := h b List.mem_cons_self
    simp [scanFor, hb, ih (fun x hx => h x (List.mem_cons_of_mem _ hx))]

/-- The blanks end at a byte that is none. -/
theorem skipSpaces_text {c : UInt8} (hc : c ≠ chSpace) (s r : List UInt8) :
    skipSpaces (s ++ c :: r) = .ok (s.dropWhile (· == chSpace) ++ c :: r) := by
  induction s with
  | nil => simp [skipSpaces, hc]
  | cons b bs ih =>
    by_cases hb : b = chSpace
    · subst hb
      simpa [skipSpaces] using ih
    · simp [skipSpaces, hb]

theorem strndup_append (h : ∀ b ∈ s, b ≠ 0) (r : List UInt8) :
    strndup (s ++ r) s.length = s := by
  rw [strndup, List.take_left]
  induction s with
  | nil => rfl
  | cons b bs ih =>
    have hb : b ≠ 0 := h b List.mem_cons_self
    simpa [hb] using ih (fun x hx => h x (List.mem_cons_of_mem _ hx))

theorem hexDigit_eq (c : UInt8) : (hexDigit c).map UInt8.toNat = hexVal c := by
  have h : ∀ n : Fin 256, (hexDigit (UInt8.ofNat n)).map UInt8.toNat = hexVal (UInt8.ofNat n) := by
    decide +kernel
  have hc := h ⟨c.toNat, c.toNat_lt⟩
  simpa using hc

theorem hexVal_lt {d : Nat} (h : hexVal c = some d) : d < 16 := by
  unfold hexVal at h
  split at h
  · cases h; omega
  · split at h
    · cases h; omega
    · split at h
      · cases h; omega
      · cases h

theorem hexVal_ne (h : (hexVal c).isSome) : c ≠ chSpace ∧ c ≠ chDash ∧ c ≠ 0 ∧ c ≠ chNewline := by
  refine ⟨?_, ?_, ?_, ?_⟩ <;> rintro rfl <;> cases h

theorem ofNat_shiftDigit (v d : Nat) (hd : d < 16) :
    BitVec.ofNat 64 v <<< 4 ||| BitVec.ofNat 64 d = BitVec.ofNat 64 (16 * v + d) := by
  have hlow : ∀ i, 4 ≤ i → d.testBit i = false := by
    intro i hi
    apply Nat.testBit_lt_two_pow
    calc d < 2 ^ 4 := hd
      _ ≤ 2 ^ i := Nat.pow_le_pow_right (by omega) hi
  have hsum : 16 * v + d = v <<< 4 ||| d := by
    rw [← Nat.shiftLeft_add_eq_or_of_lt (i := 4) hd, Nat.shiftLeft_eq]
    omega
  apply BitVec.eq_of_getLsbD_eq
  intro i hi
  rw [hsum]
  simp only [BitVec.getLsbD_or, BitVec.getLsbD_shiftLeft, BitVec.getLsbD_ofNat, Nat.testBit_or,
    Nat.testBit_shiftLeft, hi, decide_true, Bool.true_and]
  by_cases h4 : i < 4
  · simp [h4, Nat.not_le.mpr h4]
  · have : i - 4 < 64 := by omega
    simp [h4, Nat.not_lt.mp h4, this]

/-- `hex_to_int` computes the value of a run of hexadecimal digits, modulo 2^64. -/
theorem hexLoop_eq (h : ∀ c ∈ s, (hexVal c).isSome) (v : Nat) (r : List UInt8) :
    hexLoop s.length (s ++ r) (BitVec.ofNat 64 v) =
      .ok (some (BitVec.ofNat 64 (s.foldl (fun n c => 16 * n + (hexVal c).getD 0) v))) := by
  induction s generalizing v with
  | nil => rfl
  | cons c cs ih =>
    obtain ⟨d, hd⟩ := Option.isSome_iff_exists.mp (h c List.mem_cons_self)
    obtain ⟨b, hb, hbd⟩ := Option.map_eq_some_iff.mp ((hexDigit_eq c).trans hd)
    have hdig : b.toBitVec.setWidth 64 = BitVec.ofNat 64 d := by
      apply BitVec.eq_of_toNat_eq
      simp [← hbd]
    simp only [List.length_cons, List.cons_append, hexLoop, hb, hdig,
      ofNat_shiftDigit v d (hexVal_lt hd), List.foldl_cons, hd, Option.getD_some]
    exact ih (fun x hx => h x (List.mem_cons_of_mem _ hx)) _

theorem hexToInt_eq (f : HexField) (p r : List UInt8) {l : Int}
    (h : l = p.length + f.digits.length - 1) :
    hexToInt (p ++ (f.digits ++ r)) p.length l = .ok (some f.value) := by
  have hpos := List.length_pos_iff.mpr f.nonempty
  have hshort := f.short
  have hlen : (l - p.length + 1).toNat = f.digits.length := by omega
  rw [hexToInt, if_neg (by omega), if_neg (by omega), hlen, List.drop_left]
  exact hexLoop_eq f.hex 0 r

theorem findIdx_append (h : ∀ b ∈ s, b ≠ c) (r : List UInt8) :
    (s ++ c :: r).findIdx (· == c) = s.length := by
  induction s with
  | nil => simp [List.findIdx_cons]
  | cons b bs ih =>
    have hb : (b == c) = false := beq_eq_false_iff_ne.mpr (h b List.mem_cons_self)
    simp [List.findIdx_cons, hb, ih (fun x hx => h x (List.mem_cons_of_mem _ hx))]

theorem drop_append_succ (s : List UInt8) (c : UInt8) (r : List UInt8) :
    (s ++ c :: r).drop (s.length + 1) = r := by
  simp [← List.drop_drop]

theorem parseMmapRange_eq (f g : HexField) (r : List UInt8) :
    parseMmapRange (f.digits ++ chDash :: (g.digits ++ chSpace :: r)) =
      .ok (some (r, f.value, g.value)) := by
  obtain ⟨range, hrange⟩ : ∃ range, range = f.digits ++ chDash :: g.digits := ⟨_, rfl⟩
  have hmmap : f.digits ++ chDash :: (g.digits ++ chSpace :: r) = range ++ chSpace :: r := by
    simp [hrange]
  have hmem : ∀ b ∈ range, b ≠ chSpace ∧ b ≠ 0 := by
    intro b hb
    rw [hrange] at hb
    rcases List.mem_append.mp hb with hb | hb
    · exact ⟨(hexVal_ne (f.hex b hb)).1, (hexVal_ne (f.hex b hb)).2.2.1⟩
    · rcases List.mem_cons.mp hb with rfl | hb
      · decide
      · exact ⟨(hexVal_ne (g.hex b hb)).1, (hexVal_ne (g.hex b hb)).2.2.1⟩
  have hdash : range.findIdx (· == chDash) = f.digits.length := by
    rw [hrange]
    exact findIdx_append (fun b hb => (hexVal_ne (f.hex b hb)).2.1) g.digits
  have hstart : hexToInt (range ++ [0]) 0 ((f.digits.length : Int) - 1) = .ok (some f.value) := by
    have h := hexToInt_eq f [] (chDash :: (g.digits ++ [0])) (l := f.digits.length - 1) (by simp)
    simpa [hrange] using h
  have hstop : hexToInt (range ++ [0]) (f.digits.length + 1) ((range.length : Int) - 1) =
      .ok (some g.value) := by
    have h := hexToInt_eq g (f.digits ++ [chDash]) [0] (l := (range.length : Int) - 1)
      (by simp [hrange]; omega)
    simpa [hrange] using h
  rw [hmmap, parseMmapRange, scanFor_append fun b hb => (hmem b hb).1]
  simp only [ok_bind, strndup_append fun b hb => (hmem b hb).2, List.take_left, hdash,
    drop_append_succ, hstart, hstop]
  rfl

theorem attrLoop_eq (s r : List UInt8) (attr : BitVec 8) :
    attrLoop s.length (s ++ r) attr = .ok (s.foldl (fun a c => a ||| attrOfChar c) attr) := by
  induction s generalizing attr with
  | nil => rfl
  | cons c cs ih => simpa [attrLoop] using ih _

/-- The bits `parse_mmap_attr` collects from the permission letters. -/
def permBits (s : List UInt8) : BitVec 8 := s.foldl (fun a c => a ||| attrOfChar c) 0

theorem parseMmapAttr_text (h : ∀ b ∈ s, b ≠ chSpace ∧ b ≠ 0) (r : List UInt8) :
    parseMmapAttr (s ++ chSpace :: r) = .ok (r, permBits s) := by
  rw [parseMmapAttr, scanFor_append fun b hb => (h b hb).1]
  simp only [ok_bind, strndup_append fun b hb => (h b hb).2, attrLoop_eq, drop_append_succ]
  rfl

theorem attrBit_foldl (a : ObjAttr) (s : List UInt8) (attr : BitVec 8) :
    attrBit (s.foldl (fun a c => a ||| attrOfChar c) attr) a =
      (attrBit attr a || s.any fun c => attrBit (attrOfChar c) a) := by
  induction s generalizing attr with
  | nil => simp
  | cons c cs ih => simp [ih, attrBit_or, Bool.or_assoc]

/-- A bit is collected exactly when its letter occurs. -/
theorem attrBit_permBits {a : ObjAttr} {l : UInt8}
    (hl : ∀ c, attrBit (attrOfChar c) a = decide (c = l)) (s : List UInt8) :
    attrBit (permBits s) a = decide (l ∈ s) := by
  rw [permBits, attrBit_foldl]
  have h0 : attrBit 0 a = false := by cases a <;> rfl
  rw [h0, Bool.false_or, Bool.eq_iff_iff]
  simp [hl]

theorem attrBit_attrOfChar (c : UInt8) :
    attrBit (attrOfChar c) .READ = decide (c = 0x72) ∧
    attrBit (attrOfChar c) .WRITE = decide (c = 0x77) ∧
    attrBit (attrOfChar c) .EXECUTE = decide (c = 0x78) ∧
    attrBit (attrOfChar c) .PRIVATE = decide (c = 0x70) := by
  have h0 : ∀ a, attrBit 0 a = false := by intro a; cases a <;> rfl
  by_cases hr : c = 0x72
  · subst hr; decide
  by_cases hw : c = 0x77
  · subst hw; decide
  by_cases hx : c = 0x78
  · subst hx; decide
  by_cases hp : c = 0x70
  · subst hp; decide
  simp only [attrOfChar, hr, hw, hx, hp, if_false, h0, decide_false, and_self]

theorem toUInt8_toNat {ch : Char} (h : ch.isDigit) :
    ch.toUInt8.toNat = ch.toNat ∧ 0x30 ≤ ch.toNat ∧ ch.toNat ≤ 0x39 := by
  simp only [Char.isDigit, Bool.and_eq_true, decide_eq_true_eq, UInt32.le_iff_toNat_le] at h
  have hlo : 0x30 ≤ ch.toNat := h.1
  have hhi : ch.toNat ≤ 0x39 := h.2
  refine ⟨?_, hlo, hhi⟩
  calc ch.toUInt8.toNat = ch.toNat % 2 ^ 8 := UInt32.toNat_toUInt8 ch.val
    _ = ch.toNat := Nat.mod_eq_of_lt (by omega)

theorem mem_decimal {n : Nat} {b : UInt8} (h : b ∈ decimal n) :
    isDigit b ∧ isSpace b = false ∧ b ≠ 0x2d ∧ b ≠ 0x2b ∧ b ≠ 0 := by
  obtain ⟨ch, hch, rfl⟩ := List.mem_map.mp h
  obtain ⟨heq, hlo, hhi⟩ :=
    toUInt8_toNat (Nat.isDigit_of_mem_toDigits (by decide) (by decide) hch)
  rw [← heq] at hlo hhi
  simp only [isDigit, isSpace, ne_eq, ← UInt8.toNat_inj, UInt8.le_iff_toNat_le,
    Bool.and_eq_true, decide_eq_true_eq, Bool.or_eq_false_iff, decide_eq_false_iff_not,
    Bool.and_eq_false_iff, UInt8.reduceToNat]
  omega

theorem decimalValue_decimal (n : Nat) : decimalValue (decimal n) = n := by
  have hfold : ∀ (l : List Char) (v : Nat), (∀ ch ∈ l, ch.isDigit) →
      (l.map Char.toUInt8).foldl (fun n c => 10 * n + (c.toNat - 0x30)) v =
        Nat.ofDigitChars 10 l v := by
    intro l
    induction l with
    | nil => intro v _; simp
    | cons ch l ih =>
      intro v hl
      obtain ⟨hd, hl⟩ := List.forall_mem_cons.mp hl
      simp only [List.map_cons, List.foldl_cons, (toUInt8_toNat hd).1, Nat.ofDigitChars_cons]
      exact ih _ hl
  calc decimalValue (decimal n) = Nat.ofDigitChars 10 (Nat.toDigits 10 n) 0 :=
        hfold _ _ fun ch hch => Nat.isDigit_of_mem_toDigits (by decide) (by decide) hch
    _ = n := Nat.ofDigitChars_ten_toDigits

theorem takeWhile_eq_self {p : UInt8 → Bool} (h : ∀ b ∈ s, p b) : s.takeWhile p = s := by
  induction s with
  | nil => rfl
  | cons b bs ih =>
    obtain ⟨hb, hbs⟩ := List.forall_mem_cons.mp h
    simp [hb, ih hbs]

theorem strtol_decimal (n : Nat) : strtol (decimal n) = min (n : Int) (2 ^ 63 - 1) := by
  have hmem : ∀ b ∈ decimal n, isDigit b ∧ isSpace b = false ∧ b ≠ 0x2d ∧ b ≠ 0x2b ∧ b ≠ 0 :=
    fun b hb => mem_decimal hb
  have hvalue := decimalValue_decimal n
  have htake := takeWhile_eq_self fun b hb => (hmem b hb).1
  have hne : decimal n ≠ [] := by simp [decimal]
  rcases hd : decimal n with _ | ⟨b, bs⟩
  · exact absurd hd hne
  rw [hd] at hmem hvalue htake
  obtain ⟨_, hsp, hminus, hplus, _⟩ := hmem b List.mem_cons_self
  rw [strtol, List.dropWhile_cons_of_neg (by simp [hsp])]
  split
  · rename_i heq
    exact absurd (List.cons.inj heq).1 hminus
  · rename_i heq
    exact absurd (List.cons.inj heq).1 hplus
  · rw [htake, hvalue]
    dsimp only
    omega

theorem atoi_decimal {n : Nat} (h : n < 2 ^ 31) : atoi (decimal n) = BitVec.ofNat 32 n := by
  rw [atoi, strtol_decimal, min_eq_left (by omega)]
  exact BitVec.ofInt_natCast 32 n

theorem parseMmapInode_text {off dev inode : List UInt8} (hoff : ∀ b ∈ off, b ≠ chSpace)
    (hdev : ∀ b ∈ dev, b ≠ chSpace) (hinode : ∀ b ∈ inode, b ≠ chSpace ∧ b ≠ 0)
    (path r : List UInt8) :
    parseMmapInode (off ++ chSpace :: (dev ++ chSpace :: (inode ++ chSpace ::
      (path ++ chNewline :: r)))) =
        .ok (path.dropWhile (· == chSpace) ++ chNewline :: r, atoi inode) := by
  have hskip := skipSpaces_text (c := chNewline) (by decide) (chSpace :: path) r
  rw [List.cons_append, List.dropWhile_cons_of_pos (by simp)] at hskip
  rw [parseMmapInode, scanFor_append hoff]
  simp only [ok_bind, drop_append_succ, scanFor_append hdev,
    scanFor_append fun b hb => (hinode b hb).1, List.drop_left,
    strndup_append fun b hb => (hinode b hb).2, hskip]
  rfl

/-- What the loop body reads from a rendered mapping. -/
def MapEntry.line (e : MapEntry) : MmapLine where
  start := e.start.value
  stop := e.stop.value
  attr := permBits e.perms.text
  inode := BitVec.ofNat 32 e.inode
  file := if e.inode = 0 then none else some e.path

theorem ofNat_inode_eq_zero (e : MapEntry) : BitVec.ofNat 32 e.inode = 0 ↔ e.inode = 0 := by
  have hlt := e.inode_lt
  rw [← BitVec.toNat_inj]
  simp only [BitVec.toNat_ofNat, BitVec.ofNat_eq_ofNat]
  omega

/-- A line whose range is read is read to its end, whatever its other fields are; only a
file-backed one keeps the path. -/
theorem parseMmapLine_text {w perms off dev inode path : List UInt8} {start stop : BitVec 64}
    (hrange : ∀ r, parseMmapRange (w ++ chSpace :: r) = .ok (some (r, start, stop)))
    (hperms : ∀ b ∈ perms, b ≠ chSpace ∧ b ≠ 0) (hoff : ∀ b ∈ off, b ≠ chSpace)
    (hdev : ∀ b ∈ dev, b ≠ chSpace) (hinode : ∀ b ∈ inode, b ≠ chSpace ∧ b ≠ 0)
    (hpath : ∀ b ∈ path, b ≠ chNewline ∧ b ≠ 0) (r : List UInt8) :
    parseMmapLine (w ++ chSpace :: (perms ++ chSpace :: (off ++ chSpace :: (dev ++ chSpace ::
      (inode ++ chSpace :: (path ++ chNewline :: r)))))) =
      .ok (some (r, ⟨start, stop, permBits perms, atoi inode,
        if atoi inode = 0 then none else some (path.dropWhile (· == chSpace))⟩)) := by
  obtain ⟨rest, hrest⟩ : ∃ rest, rest = path.dropWhile (· == chSpace) := ⟨_, rfl⟩
  have hsub : ∀ b ∈ rest, b ≠ chNewline ∧ b ≠ 0 := by
    intro b hb
    rw [hrest] at hb
    exact hpath b ((List.dropWhile_sublist _).subset hb)
  rw [parseMmapLine, hrange]
  simp only [ok_bind, parseMmapAttr_text hperms, parseMmapInode_text hoff hdev hinode, ne_eq,
    ← hrest]
  by_cases hz : atoi inode = 0
  · rw [if_neg (fun h => h hz), scanFor_append fun b hb => (hsub b hb).1]
    simp only [ok_bind, drop_append_succ]
    simp [hz, pure, Except.pure]
  · rw [if_pos hz, parseMmapFile, scanFor_append fun b hb => (hsub b hb).1]
    simp only [ok_bind, List.drop_left, strndup_append fun b hb => (hsub b hb).2]
    rw [if_neg hz]
    simp [pure, Except.pure]

theorem parseMmapLine_fields (f g : HexField) (perms off dev : PlainField) (n k : Nat)
    {path : List UInt8} (hpath : ∀ c ∈ path, c ≠ chNewline ∧ c ≠ 0) (r : List UInt8) :
    parseMmapLine (f.digits ++ chDash :: (g.digits ++ chSpace :: (perms.text ++ chSpace ::
      (off.text ++ chSpace :: (dev.text ++ chSpace :: (decimal n ++ chSpace ::
        (List.replicate k chSpace ++ (path ++ chNewline :: r)))))))) =
      .ok (some (r, ⟨f.value, g.value, permBits perms.text, atoi (decimal n),
        if atoi (decimal n) = 0 then none else some (path.dropWhile (· == chSpace))⟩)) := by
  have hrange : ∀ r, parseMmapRange ((f.digits ++ chDash :: g.digits) ++ chSpace :: r) =
      .ok (some (r, f.value, g.value)) := by
    intro r
    rw [List.append_assoc, List.cons_append]
    exact parseMmapRange_eq f g r
  have hplain : ∀ b ∈ decimal n, b ≠ chSpace ∧ b ≠ 0 := by
    intro b hb
    refine ⟨?_, (mem_decimal hb).2.2.2.2⟩
    rintro rfl
    exact absurd (mem_decimal hb).1 (by decide)
  have hpadded : ∀ b ∈ List.replicate k chSpace ++ path, b ≠ chNewline ∧ b ≠ 0 := by
    intro b hb
    rcases List.mem_append.mp hb with hb | hb
    · obtain rfl := List.eq_of_mem_replicate hb
      decide
    · exact hpath b hb
  have h := parseMmapLine_text hrange (fun b hb => ⟨(perms.plain b hb).1, (perms.plain b hb).2.2⟩)
    (fun b hb => (off.plain b hb).1) (fun b hb => (dev.plain b hb).1) hplain hpadded r
  rw [List.dropWhile_append_of_pos (by simp)] at h
  simpa only [List.append_assoc, List.cons_append] using h

/-- The path of a mapping with a file starts where its blanks end. -/
theorem dropWhile_path {path : List UInt8} (h : path.head? ≠ some chSpace) :
    path.dropWhile (· == chSpace) = path := by
  rcases path with _ | ⟨b, bs⟩
  · rfl
  · have hb : b ≠ chSpace := by simpa using h
    exact List.dropWhile_cons_of_neg (by simpa using hb)

theorem parseMmapLine_render (e : MapEntry) (r : List UInt8) :
    parseMmapLine (e.render ++ r) = .ok (some (r, e.line)) := by
  have hmmap : e.render ++ r = e.start.digits ++ chDash :: (e.stop.digits ++ chSpace ::
      (e.perms.text ++ chSpace :: (e.offset.text ++ chSpace :: (e.dev.text ++ chSpace ::
        (decimal e.inode ++ chSpace :: (List.replicate e.padding chSpace ++
          (e.path ++ chNewline :: r))))))) := by
    simp [MapEntry.render]
  rw [hmmap, parseMmapLine_fields _ _ _ _ _ _ _ e.path_ok, atoi_decimal e.inode_lt, MapEntry.line]
  by_cases hz : e.inode = 0
  · simp [hz]
  · have hpath := dropWhile_path (e.path_named (Nat.pos_of_ne_zero hz)).2
    rw [if_neg ((ofNat_inode_eq_zero e).not.mpr hz), if_neg hz, hpath]

/-- No byte of a line is the terminator. -/
theorem mem_fields {f g : HexField} {perms off dev : PlainField} {n k : Nat} {b : UInt8}
    {path : List UInt8} (hpath : ∀ c ∈ path, c ≠ chNewline ∧ c ≠ 0)
    (h : b ∈ f.digits ++ chDash :: (g.digits ++ chSpace :: (perms.text ++ chSpace ::
      (off.text ++ chSpace :: (dev.text ++ chSpace :: (decimal n ++ chSpace ::
        (List.replicate k chSpace ++ (path ++ [chNewline])))))))) : b ≠ 0 := by
  have hsp : chSpace ≠ 0 := by decide
  have hnl : chNewline ≠ 0 := by decide
  have hdash : chDash ≠ 0 := by decide
  simp only [List.mem_append, List.mem_cons, List.mem_replicate, List.not_mem_nil, or_false] at h
  rcases h with h | rfl | h | rfl | h | rfl | h | rfl | h | rfl | h | rfl | ⟨_, rfl⟩ | h | rfl
  · exact (hexVal_ne (f.hex b h)).2.2.1
  · exact hdash
  · exact (hexVal_ne (g.hex b h)).2.2.1
  · exact hsp
  · exact (perms.plain b h).2.2
  · exact hsp
  · exact (off.plain b h).2.2
  · exact hsp
  · exact (dev.plain b h).2.2
  · exact hsp
  · exact (mem_decimal h).2.2.2.2
  · exact hsp
  · exact hsp
  · exact (hpath b h).2
  · exact hnl

theorem mem_render {e : MapEntry} {b : UInt8} (h : b ∈ e.render) : b ≠ 0 :=
  mem_fields e.path_ok h

/-- Each line moves the cursor to the next one and the registry by `add`. -/
theorem parseMmapLoop_lines {α σ : Type} {render : α → List UInt8} {line : α → MmapLine}
    (hline : ∀ e r, parseMmapLine (render e ++ r) = .ok (some (r, line e)))
    (add : σ → MmapLine → σ) (objects : σ) (es : List α) :
    parseMmapLoop add 1 objects (es.flatMap render ++ [0]) =
      .ok (es.foldl (fun o e => add o (line e)) objects, 0) := by
  induction es generalizing objects with
  | nil => rw [parseMmapLoop]; rfl
  | cons e es ih =>
    have hmmap : (e :: es).flatMap render ++ [0] = render e ++ (es.flatMap render ++ [0]) := by simp
    have hline := hline e (es.flatMap render ++ [0])
    have hlen : (render e ++ (es.flatMap render ++ [0])).length ≠ 1 := by
      have := parseMmapLine_lt hline
      simp only [List.length_append, List.length_singleton] at this ⊢
      omega
    rw [hmmap, parseMmapLoop_line hlen hline]
    exact ih _

/-- The text of lines that are read to their end is read line by line, by either tracer. -/
theorem parseMmap_lines {α σ : Type} {render : α → List UInt8} {line : α → MmapLine}
    (hline : ∀ e r, parseMmapLine (render e ++ r) = .ok (some (r, line e)))
    (hzero : ∀ e, ∀ b ∈ render e, b ≠ 0) (add : σ → MmapLine → σ) (objects : σ) (es : List α) :
    (scanFor 0 (es.flatMap render ++ [0]) >>= fun strlen =>
      parseMmapLoop add ((es.flatMap render ++ [0]).length - strlen) objects
        (es.flatMap render ++ [0])) =
      .ok (es.foldl (fun o e => add o (line e)) objects, 0) := by
  have hzero : ∀ b ∈ es.flatMap render, b ≠ 0 := by
    intro b hb
    obtain ⟨e, _, hb⟩ := List.mem_flatMap.mp hb
    exact hzero e b hb
  rw [scanFor_append hzero []]
  simp only [ok_bind, List.length_append, List.length_singleton, Nat.add_sub_cancel_left]
  exact parseMmapLoop_lines hline add objects es

section Registry

variable {self : Addr} {objects : List Object} {e : MapEntry} {es : List MapEntry}
  {seen : List (Addr × Addr)}

variable (self) in
theorem attrBit_newObject (line : MmapLine) {a : ObjAttr} (ha : a ≠ .NO_BKPT) :
    (newObject self line).hasAttr a = attrBit line.attr a := by
  rw [hasAttr_eq, newObject]
  split
  · rw [Object.setAttr, attrBit_or, attrBit_flag, decide_eq_false (Ne.symm ha), Bool.or_false]
  · rfl

theorem newObject_range (line : MmapLine) :
    (newObject self line).range = (line.start, line.stop) := by
  rw [newObject]
  split <;> rfl

theorem newObject_fileName (line : MmapLine) :
    (newObject self line).fileName = line.file.getD [] := by
  rw [newObject]
  split <;> rfl

/-- The object made of a wanted mapping carries it. -/
theorem carries_newObject (h : e.Wanted) : Carries (newObject self e.line) e := by
  have hperm := fun a l hl ha => (attrBit_newObject self (a := a) e.line ha).trans
    (attrBit_permBits (l := l) hl e.perms.text)
  refine ⟨?_, ?_, ?_, ?_, ?_, ?_, ?_⟩
  · exact congrArg Prod.fst (newObject_range e.line)
  · exact congrArg Prod.snd (newObject_range e.line)
  · rw [newObject_fileName, MapEntry.line, if_neg (Nat.ne_of_gt h.1)]
    rfl
  · exact hperm _ _ (fun c => (attrBit_attrOfChar c).1) (by decide)
  · exact hperm _ _ (fun c => (attrBit_attrOfChar c).2.1) (by decide)
  · exact hperm _ _ (fun c => (attrBit_attrOfChar c).2.2.1) (by decide)
  · exact hperm _ _ (fun c => (attrBit_attrOfChar c).2.2.2) (by decide)

/-- A line adds an object exactly when its mapping is wanted and its range is new. -/
theorem addLine_line (self : Addr) (objects : List Object) (e : MapEntry) :
    addLine self objects e.line =
      if e.Wanted ∧ e.range ∉ objects.map Object.range then objects ++ [newObject self e.line]
      else objects := by
  have hinode : e.line.inode = 0 ↔ e.inode = 0 := ofNat_inode_eq_zero e
  have hexec : e.line.attr &&& ObjAttr.EXECUTE.flag = 0 ↔ 0x78 ∉ e.perms.text := by
    have h := (hasAttr_eq ⟨[], 0, 0, e.line.attr, []⟩ .EXECUTE).trans
      (attrBit_permBits (fun c => (attrBit_attrOfChar c).2.2.1) e.perms.text)
    rw [← decide_eq_false_iff_not, ← h]
    simp [Object.hasAttr]
  have hrange : (objects.any fun o => o.textStart == e.line.start && o.textEnd == e.line.stop) ↔
      e.range ∈ objects.map Object.range := by
    simp [Object.range, MapEntry.range, MapEntry.line]
  have hwanted : e.Wanted ↔ ¬ e.inode = 0 ∧ ¬ 0x78 ∉ e.perms.text := by
    simp [MapEntry.Wanted, Nat.pos_iff_ne_zero]
  simp only [addLine, hinode, hexec, hrange, hwanted]
  by_cases hz : e.inode = 0
  · simp [hz]
  by_cases hx : 0x78 ∉ e.perms.text
  · simp [hx]
  by_cases hr : e.range ∈ objects.map Object.range
  · simp only [hz, hx, hr, if_false, if_true, not_true_eq_false, and_false]
  · simp only [hz, hx, hr, if_false, if_true, not_false_eq_true, and_self]

theorem foldl_addLine (self : Addr) (objects : List Object) (es : List MapEntry) :
    es.foldl (fun o e => addLine self o e.line) objects =
      objects ++ (registered (objects.map Object.range) es).map fun e => newObject self e.line := by
  induction es generalizing objects with
  | nil => simp [registered]
  | cons e es ih =>
    rw [List.foldl_cons, addLine_line, registered]
    split
    · rw [ih, List.map_append, List.map_singleton, newObject_range]
      simp [MapEntry.range, MapEntry.line]
    · exact ih objects

theorem wanted_of_mem_registered (h : e ∈ registered seen es) : e.Wanted := by
  induction es generalizing seen with
  | nil => cases h
  | cons d es ih =>
    rw [registered] at h
    split at h
    · rename_i hd
      rcases List.mem_cons.mp h with rfl | h
      · exact hd.1
      · exact ih h
    · exact ih h

/-- Afterwards the range of every wanted mapping is taken. -/
theorem range_mem_registered (h : e ∈ es) (hw : e.Wanted) :
    e.range ∈ seen ++ (registered seen es).map MapEntry.range := by
  induction es generalizing seen with
  | nil => cases h
  | cons d es ih =>
    rw [registered]
    split
    · rcases List.mem_cons.mp h with rfl | h
      · simp
      · simpa using @ih (seen ++ [d.range]) h
    · rename_i hd
      rcases List.mem_cons.mp h with rfl | h
      · have hseen : e.range ∈ seen := by
          by_contra hn
          exact hd ⟨hw, hn⟩
        exact List.mem_append_left _ hseen
      · exact ih h

theorem registered_eq_nil (h : ∀ e ∈ es, e.Wanted → e.range ∈ seen) : registered seen es = [] := by
  induction es with
  | nil => rfl
  | cons d es ih =>
    obtain ⟨hd, hes⟩ := List.forall_mem_cons.mp h
    rw [registered, if_neg (fun hn => hn.2 (hd hn.1))]
    exact ih hes

theorem objectParseMmap_foldl (self : Addr) (objects : List Object) (es : List MapEntry) :
    objectParseMmap self objects (renderMaps es) =
      .ok (es.foldl (fun o e => addLine self o e.line) objects, 0) :=
  parseMmap_lines parseMmapLine_render (fun _ _ hb => mem_render hb) (addLine self) objects es

/-- Parsing the text of any list of mappings succeeds and appends one object for each mapping
that calls for one, in the order of the text; parsing it again changes nothing. -/
theorem objectParseMmap_renderMaps (self : Addr) (objects : List Object) (es : List MapEntry) :
    ∃ news : List Object,
      objectParseMmap self objects (renderMaps es) = .ok (objects ++ news, 0) ∧
      List.Forall₂ Carries news (registered (objects.map Object.range) es) ∧
      objectParseMmap self (objects ++ news) (renderMaps es) = .ok (objects ++ news, 0) := by
  obtain ⟨news, hnews⟩ : ∃ news, news =
      (registered (objects.map Object.range) es).map fun e => newObject self e.line := ⟨_, rfl⟩
  refine ⟨news, ?_, ?_, ?_⟩
  · rw [objectParseMmap_foldl, foldl_addLine, hnews]
  · rw [hnews, List.forall₂_map_left_iff, List.forall₂_same]
    intro e he
    exact carries_newObject (wanted_of_mem_registered he)
  · have hmap : (objects ++ news).map Object.range = objects.map Object.range ++
        (registered (objects.map Object.range) es).map MapEntry.range := by
      rw [hnews, List.map_append, List.map_map]
      exact congrArg _ (List.map_congr_left fun e _ => newObject_range e.line)
    have hnil : registered ((objects ++ news).map Object.range) es = [] := by
      apply registered_eq_nil
      intro e he hw
      rw [hmap]
      exact range_mem_registered he hw
    rw [objectParseMmap_foldl, foldl_addLine, hnil, List.map_nil, List.append_nil]

end Registry

end Atrace.Signal
