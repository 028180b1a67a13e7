import Mathlib.Data.List.TakeWhile
import Utlib.Numeral

/-! `strtol` of the C library and `std::stol`, and the texts that they read a number from. -/

namespace Utlib.Strtol

open Numeral

/-- `isspace` in the C locale -/
def isSpace (c : Char) : Bool :=
  c = ' ' ∨ c = '\t' ∨ c = '\n' ∨ c = '\x0b' ∨ c = '\x0c' ∨ c = '\r'

def takeSign : List Char → Bool × List Char
  | '+' :: s => (false, s)
  | '-' :: s => (true, s)
  | s => (false, s)

/-- `0x` counts as such only in front of a digit. -/
def hexPrefixed : List Char → Bool
  | c :: x :: d :: _ => c = '0' ∧ (x = 'x' ∨ x = 'X') ∧ IsDigit 16 d
  | _ => false

/-- The base that the digits have, and where they begin. -/
def select (base : Nat) (s : List Char) : Nat × List Char :=
  if (base = 0 ∨ base = 16) ∧ hexPrefixed s then (16, s.drop 2)
  else if base = 0 then (if s.head? = some '0' then 8 else 10, s)
  else (base, s)

/-- Without the bound of a `long`, and `none` if there is nothing to convert. -/
def strtol (s : List Char) (base : Nat) : Option Int :=
  let (negative, s) := takeSign (s.dropWhile isSpace)
  let (base, s) := select base s
  let digits := s.takeWhile fun c => IsDigit base c
  if digits = [] then none
  else some (if negative then -(value base digits : Int) else value base digits)

inductive Exception
  | invalidArgument
  | outOfRange
  deriving DecidableEq

def FitsLong (v : Int) : Prop := -2 ^ 63 ≤ v ∧ v < 2 ^ 63

instance (v : Int) : Decidable (FitsLong v) := inferInstanceAs (Decidable (_ ∧ _))

/-- `std::stol(s, nullptr, base)` -/
def stol (s : List Char) (base : Nat) : Except Exception Int :=
  match strtol s base with
  | none => .error .invalidArgument
  | some v => if FitsLong v then .ok v else .error .outOfRange

/-- The text behind the number -/
def rest (s : List Char) (base : Nat) : List Char :=
  let selected := select base (takeSign (s.dropWhile isSpace)).2
  selected.2.dropWhile fun c => IsDigit selected.1 c

/-- `std::stoll(s, &pos, base)`, also with `pos`. A `long long` has the width of a `long`. -/
def stoll (s : List Char) (base : Nat) : Except Exception (Int × Nat) :=
  match stol s base with
  | .error e => .error e
  | .ok v => .ok (v, s.length - (rest s base).length)

/-- Which base the digits have, and what may stand in front of them. -/
inductive Selects (base : Nat) : List Char → Nat → List Char → Prop
  | hexadecimal {x : Char} {s : List Char} : base = 0 ∨ base = 16 → x = 'x' ∨ x = 'X' →
    (∃ d t, s = d :: t ∧ IsDigit 16 d) → Selects base ['0', x] 16 s
  | octal {s : List Char} : base = 0 → hexPrefixed s = false → s.head? = some '0' →
    Selects base [] 8 s
  | decimal {s : List Char} : base = 0 → s.head? ≠ some '0' → Selects base [] 10 s
  | fixed {s : List Char} : base ≠ 0 → (base = 16 → hexPrefixed s = false) → Selects base [] base s

/-- A number at the beginning of a text -/
structure Reading (base : Nat) (text : List Char) where
  spaces : List Char
  sign : List Char
  lead : List Char
  radix : Nat
  digits : List Char
  tail : List Char
  text_eq : text = spaces ++ (sign ++ (lead ++ (digits ++ tail)))
  isSpace_of_mem : ∀ c ∈ spaces, isSpace c = true
  sign_eq : sign = [] ∨ sign = ['+'] ∨ sign = ['-']
  selects : Selects base lead radix (digits ++ tail)
  ne_nil : digits ≠ []
  isDigit_of_mem : ∀ c ∈ digits, IsDigit radix c
  longest : ∀ c, tail.head? = some c → ¬IsDigit radix c

def Reading.value {base : Nat} {text : List Char} (r : Reading base text) : Int :=
  if r.sign = ['-'] then -(Numeral.value r.radix r.digits : Int)
  else Numeral.value r.radix r.digits

section Select

variable {base radix : Nat} {lead s : List Char}

theorem hexPrefixed_iff :
    hexPrefixed s = true ↔
      ∃ x d t, s = '0' :: x :: d :: t ∧ (x = 'x' ∨ x = 'X') ∧ IsDigit 16 d := by
  unfold hexPrefixed
  split
  · next c x d t =>
    rw [decide_eq_true_iff]
    constructor
    · rintro ⟨rfl, hx, hd⟩
      exact ⟨x, d, t, rfl, hx, hd⟩
    · rintro ⟨_, _, _, heq, hx, hd⟩
      cases heq
      exact ⟨rfl, hx, hd⟩
  · next hshort =>
    refine iff_of_false (by decide) ?_
    rintro ⟨x, d, t, rfl, -⟩
    exact hshort _ _ _ _ rfl

theorem Selects.select_eq (h : Selects base lead radix s) :
    select base (lead ++ s) = (radix, s) := by
  cases h with
  | @hexadecimal x s hbase hx hs =>
    obtain ⟨d, t, rfl, hd⟩ := hs
    have hlead : hexPrefixed (['0', x] ++ d :: t) = true := hexPrefixed_iff.2 ⟨x, d, t, rfl, hx, hd⟩
    rw [select, if_pos ⟨hbase, hlead⟩]
    rfl
  | octal hbase hlead hzero =>
    rw [List.nil_append, select, if_neg (by simp [hlead]), if_pos hbase, if_pos hzero]
  | decimal hbase hzero =>
    have hlead : ¬hexPrefixed s := by
      rw [hexPrefixed_iff]
      rintro ⟨_, _, _, rfl, -⟩
      exact hzero rfl
    rw [List.nil_append, select, if_neg (fun h => hlead h.2), if_pos hbase, if_neg hzero]
  | fixed hbase hlead =>
    rw [List.nil_append, select, if_neg, if_neg hbase]
    rintro ⟨hbase', hlead'⟩
    rcases hbase' with hbase' | hbase'
    · exact hbase hbase'
    · rw [hlead hbase'] at hlead'
      cases hlead'

theorem exists_selects (base : Nat) (s : List Char) :
    ∃ lead, s = lead ++ (select base s).2 ∧
      Selects base lead (select base s).1 (select base s).2 := by
  rw [select]
  split
  · next hlead =>
    obtain ⟨x, d, t, rfl, hx, hd⟩ := hexPrefixed_iff.1 hlead.2
    exact ⟨['0', x], rfl, .hexadecimal hlead.1 hx ⟨d, t, rfl, hd⟩⟩
  · next hlead =>
    split
    · next hbase =>
      have hplain : hexPrefixed s = false :=
        Bool.eq_false_iff.2 fun h => hlead ⟨.inl hbase, h⟩
      refine ⟨[], rfl, ?_⟩
      dsimp only
      split
      · next hzero => exact .octal hbase hplain hzero
      · next hzero => exact .decimal hbase hzero
    · next hbase =>
      refine ⟨[], rfl, .fixed hbase fun hsixteen => ?_⟩
      exact Bool.eq_false_iff.2 fun h => hlead ⟨.inr hsixteen, h⟩

end Select

section Readings

variable {base : Nat} {text : List Char}

theorem not_isSpace_of_isDigit {b : Nat} {c : Char} (h : IsDigit b c) : isSpace c = false := by
  rw [isSpace, decide_eq_false_iff_not]
  obtain ⟨d, hd, -⟩ := h
  rintro (rfl | rfl | rfl | rfl | rfl | rfl) <;> cases hd

theorem Selects.lead_eq {lead : List Char} {radix : Nat} {s : List Char}
    (h : Selects base lead radix s) : lead = [] ∨ ∃ x, lead = ['0', x] := by
  cases h with
  | hexadecimal => exact .inr ⟨_, rfl⟩
  | octal => exact .inl rfl
  | decimal => exact .inl rfl
  | fixed => exact .inl rfl

/-- What the number begins with -/
theorem Reading.exists_head (r : Reading base text) :
    ∃ c rest, r.lead ++ (r.digits ++ r.tail) = c :: rest ∧ ∃ b, IsDigit b c := by
  rcases r.selects.lead_eq with hlead | ⟨x, hlead⟩
  · cases hdigits : r.digits with
    | nil => exact absurd hdigits r.ne_nil
    | cons d ds =>
      exact ⟨d, ds ++ r.tail, by rw [hlead]; rfl, r.radix, r.isDigit_of_mem d (by simp [hdigits])⟩
  · exact ⟨'0', x :: (r.digits ++ r.tail), by rw [hlead]; rfl, 16, by decide⟩

theorem takeSign_append {sign : List Char} (hsign : sign = [] ∨ sign = ['+'] ∨ sign = ['-'])
    {b : Nat} {c : Char} (hc : IsDigit b c) (rest : List Char) :
    takeSign (sign ++ c :: rest) = (decide (sign = ['-']), c :: rest) := by
  rcases hsign with rfl | rfl | rfl
  · obtain ⟨d, hd, -⟩ := hc
    rw [List.nil_append]
    unfold takeSign
    split
    · next heq => cases heq; cases hd
    · next heq => cases heq; cases hd
    · rfl
  · rfl
  · rfl

theorem dropWhile_spaces {spaces sign : List Char} (hspaces : ∀ c ∈ spaces, isSpace c = true)
    (hsign : sign = [] ∨ sign = ['+'] ∨ sign = ['-']) {b : Nat} {c : Char} (hc : IsDigit b c)
    (rest : List Char) :
    (spaces ++ (sign ++ c :: rest)).dropWhile isSpace = sign ++ c :: rest := by
  have hspace := not_isSpace_of_isDigit hc
  rw [List.dropWhile_append_of_pos hspaces]
  rcases hsign with rfl | rfl | rfl
  · exact List.dropWhile_cons_of_neg (by simp [hspace])
  · rfl
  · rfl

theorem Reading.takeSign_eq (r : Reading base text) :
    takeSign (text.dropWhile isSpace) =
      (decide (r.sign = ['-']), r.lead ++ (r.digits ++ r.tail)) := by
  obtain ⟨c, rest, hbody, b, hc⟩ := r.exists_head
  have htext : text.dropWhile isSpace = r.sign ++ c :: rest := by
    conv_lhs => rw [r.text_eq, hbody]
    exact dropWhile_spaces r.isSpace_of_mem r.sign_eq hc rest
  rw [htext, takeSign_append r.sign_eq hc, hbody]

theorem Reading.takeWhile_digits (r : Reading base text) :
    ((r.digits ++ r.tail).takeWhile fun c => IsDigit r.radix c) = r.digits := by
  have hlongest := r.longest
  rw [List.takeWhile_append_of_pos fun c hc => decide_eq_true (r.isDigit_of_mem c hc)]
  cases htail : r.tail with
  | nil => exact List.append_nil _
  | cons c cs =>
    rw [htail] at hlongest
    rw [List.takeWhile_cons_of_neg (by simpa using hlongest c rfl), List.append_nil]

theorem Reading.strtol_eq (r : Reading base text) : strtol text base = some r.value := by
  rw [strtol, r.takeSign_eq]
  simp only [r.selects.select_eq, r.takeWhile_digits, if_neg r.ne_nil, decide_eq_true_iff]
  rfl

/-- A text determines what is left behind the number. -/
theorem Reading.tail_eq (r : Reading base text) :
    r.tail =
      let selected := select base (takeSign (text.dropWhile isSpace)).2
      selected.2.dropWhile fun c => IsDigit selected.1 c := by
  have hsplit := List.takeWhile_append_dropWhile
    (p := fun c => decide (IsDigit r.radix c)) (l := r.digits ++ r.tail)
  rw [r.takeWhile_digits, List.append_cancel_left_eq] at hsplit
  rw [r.takeSign_eq, r.selects.select_eq]
  exact hsplit.symm

theorem Reading.stoll_eq (r : Reading base text) :
    stoll text base =
      if FitsLong r.value then .ok (r.value, text.length - r.tail.length)
      else .error .outOfRange := by
  have htail : rest text base = r.tail := r.tail_eq.symm
  rw [stoll, stol, r.strtol_eq, htail]
  by_cases hfits : FitsLong r.value
  · simp only [if_pos hfits]
  · simp only [if_neg hfits]

theorem exists_takeSign (s : List Char) :
    ∃ sign, s = sign ++ (takeSign s).2 ∧ (sign = [] ∨ sign = ['+'] ∨ sign = ['-']) ∧
      (takeSign s).1 = decide (sign = ['-']) := by
  unfold takeSign
  split
  · exact ⟨['+'], rfl, .inr (.inl rfl), rfl⟩
  · exact ⟨['-'], rfl, .inr (.inr rfl), rfl⟩
  · exact ⟨[], rfl, .inl rfl, rfl⟩

theorem exists_reading {v : Int} (h : strtol text base = some v) :
    ∃ r : Reading base text, r.value = v := by
  obtain ⟨sign, htext, hsign, hnegative⟩ := exists_takeSign (text.dropWhile isSpace)
  obtain ⟨lead, hbody, hselects⟩ := exists_selects base (takeSign (text.dropWhile isSpace)).2
  rw [strtol] at h
  dsimp only at h
  rw [hnegative] at h
  generalize (takeSign (text.dropWhile isSpace)).2 = body at htext hbody hselects h
  generalize select base body = selected at hbody hselects h
  split at h
  · cases h
  · next hne =>
    have hdigits : (selected.2.takeWhile fun c => IsDigit selected.1 c) ++
        (selected.2.dropWhile fun c => IsDigit selected.1 c) = selected.2 :=
      List.takeWhile_append_dropWhile
    let r : Reading base text := {
      spaces := text.takeWhile isSpace
      sign := sign
      lead := lead
      radix := selected.1
      digits := selected.2.takeWhile fun c => IsDigit selected.1 c
      tail := selected.2.dropWhile fun c => IsDigit selected.1 c
      text_eq := by
        rw [hdigits, ← hbody, ← htext, List.takeWhile_append_dropWhile]
      isSpace_of_mem := fun c hc => List.mem_takeWhile_imp hc
      sign_eq := hsign
      selects := by rwa [hdigits]
      ne_nil := hne
      isDigit_of_mem := fun c hc => by simpa using List.mem_takeWhile_imp hc
      longest := fun c hc => by
        have hstop := List.head?_dropWhile_not (fun c => decide (IsDigit selected.1 c)) selected.2
        rw [hc] at hstop
        exact of_decide_eq_false hstop }
    refine ⟨r, ?_⟩
    cases h
    simp only [Reading.value, decide_eq_true_iff, r]

/-- A number that nothing but white space and a sign stands in front of. -/
def Reading.plain (spaces sign rest : List Char) (hspaces : ∀ c ∈ spaces, isSpace c = true)
    (hsign : sign = [] ∨ sign = ['+'] ∨ sign = ['-']) (hbase : base ≠ 0)
    (hstart : base = 16 → hexPrefixed rest = false)
    (hne : (rest.takeWhile fun c => IsDigit base c) ≠ []) :
    Reading base (spaces ++ (sign ++ rest)) where
  spaces := spaces
  sign := sign
  lead := []
  radix := base
  digits := rest.takeWhile fun c => IsDigit base c
  tail := rest.dropWhile fun c => IsDigit base c
  text_eq := by rw [List.takeWhile_append_dropWhile, List.nil_append]
  isSpace_of_mem := hspaces
  sign_eq := hsign
  selects := by
    rw [List.takeWhile_append_dropWhile]
    exact .fixed hbase hstart
  ne_nil := hne
  isDigit_of_mem := fun c hc => by simpa using List.mem_takeWhile_imp hc
  longest := fun c hc => by
    have hstop := List.head?_dropWhile_not (fun c => decide (IsDigit base c)) rest
    rw [hc] at hstop
    exact of_decide_eq_false hstop

theorem Reading.fitsLong (r : Reading base text) (hradix : r.radix ≤ 16)
    (hlen : r.digits.length ≤ 15) : FitsLong r.value := by
  have hlt := value_lt r.isDigit_of_mem
  have hpow : r.radix ^ r.digits.length ≤ 2 ^ 60 :=
    calc r.radix ^ r.digits.length ≤ 16 ^ r.digits.length := Nat.pow_le_pow_left hradix _
      _ ≤ 16 ^ 15 := Nat.pow_le_pow_right (by decide) hlen
      _ = 2 ^ 60 := by decide
  rw [FitsLong, Reading.value]
  split <;> omega

theorem strtol_eq_some_iff (text : List Char) (base : Nat) (v : Int) :
    strtol text base = some v ↔ ∃ r : Reading base text, r.value = v := by
  constructor
  · exact exists_reading
  · rintro ⟨r, rfl⟩
    exact r.strtol_eq

theorem stol_eq_ok_iff (text : List Char) (base : Nat) (v : Int) :
    stol text base = .ok v ↔ ∃ r : Reading base text, r.value = v ∧ FitsLong v := by
  have hreading : (∃ r : Reading base text, r.value = v ∧ FitsLong v) ↔
      strtol text base = some v ∧ FitsLong v := by
    rw [strtol_eq_some_iff, exists_and_right]
  rw [hreading, stol]
  cases strtol text base with
  | none => simp
  | some w =>
    dsimp only
    rw [Option.some.injEq]
    split
    · next hfits =>
      rw [Except.ok.injEq]
      exact ⟨fun heq => ⟨heq, heq ▸ hfits⟩, fun h => h.1⟩
    · next hfits =>
      refine iff_of_false (fun h => by cases h) ?_
      rintro ⟨rfl, hfits'⟩
      exact hfits hfits'

end Readings

end Utlib.Strtol
