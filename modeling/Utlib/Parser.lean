import Utlib.Strtol

/-! `parseNum` and `isNum` (io/Parser.h, io/Parser.cpp). -/

namespace Utlib.Parser

open Numeral Strtol

/-- With the payload that `PARSE_NUM_ERROR` has, and its message -/
structure ParseError where
  payload : Int
  msg : List Char
  deriving DecidableEq

def parseNumError : Int := 2

def ParseError.num (token : List Char) : ParseError :=
  ⟨parseNumError, token ++ " is not a number.".toList⟩

/-- The token without its first characters, if these tell the base, and the base -/
def stripped (token : List Char) : List Char × Nat :=
  if ['$'].isPrefixOf token then (token.drop 1, 16)
  else if ['0', 'x'].isPrefixOf token then (token.drop 2, 16)
  else if ['%'].isPrefixOf token then (token.drop 1, 2)
  else (token, 0)

def parseNum (token : List Char) : Except ParseError Int :=
  match stol (stripped token).1 (stripped token).2 with
  | .ok result => .ok result
  | .error _ => .error (.num token)

def isNum (token : List Char) : Bool :=
  match parseNum token with
  | .ok _ => true
  | .error _ => false

section Literals

variable {token : List Char} {v : Int}

abbrev TokenReading (token : List Char) := Reading (stripped token).2 (stripped token).1

/-- The whole rest of the token is an optional sign and digits of the selected base. -/
def IsWhole (r : TokenReading token) : Prop :=
  r.spaces = [] ∧ r.tail = [] ∧ ((stripped token).2 ≠ 0 → r.lead = [])

def Literal (token : List Char) (v : Int) : Prop :=
  ∃ r : TokenReading token, IsWhole r ∧ r.value = v ∧ FitsLong v

structure AcceptsLiterals (token : List Char) : Prop where
  returns : ∀ v, parseNum token = .ok v ↔ Literal token v
  throws : (∀ v, ¬Literal token v) → parseNum token = .error (.num token)
  isNum_iff : isNum token = true ↔ ∃ v, Literal token v

theorem parseNum_eq_ok_iff (token : List Char) (v : Int) :
    parseNum token = .ok v ↔ ∃ r : TokenReading token, r.value = v ∧ FitsLong v := by
  rw [← stol_eq_ok_iff, parseNum]
  cases stol (stripped token).1 (stripped token).2 with
  | ok result => simp
  | error e => simp

theorem parseNum_of_not_ok (h : ∀ v, parseNum token ≠ .ok v) :
    parseNum token = .error (.num token) := by
  rw [parseNum] at h ⊢
  cases hstol : stol (stripped token).1 (stripped token).2 with
  | ok result =>
    rw [hstol] at h
    exact absurd rfl (h result)
  | error e => rfl

theorem isNum_eq_true_iff (token : List Char) :
    isNum token = true ↔ ∃ v, parseNum token = .ok v := by
  rw [isNum]
  cases parseNum token with
  | ok result => simp
  | error e => simp

theorem Literal.parseNum_eq (h : Literal token v) : parseNum token = .ok v := by
  obtain ⟨r, -, hvalue⟩ := h
  exact (parseNum_eq_ok_iff token v).2 ⟨r, hvalue⟩

/-- What is read as a number is a literal. -/
theorem AcceptsLiterals.literal (h : AcceptsLiterals token) (r : TokenReading token)
    (hfits : FitsLong r.value) : Literal token r.value :=
  (h.returns _).1 ((parseNum_eq_ok_iff token _).2 ⟨r, rfl, hfits⟩)

/-- Just those tokens go wrong that begin with a number but are no literals. -/
theorem acceptsLiterals_iff (token : List Char) :
    AcceptsLiterals token ↔
      (∃ v, Literal token v) ∨ ∀ r : TokenReading token, ¬FitsLong r.value := by
  constructor
  · intro h
    by_cases hreading : ∃ r : TokenReading token, FitsLong r.value
    · obtain ⟨r, hfits⟩ := hreading
      exact .inl ⟨_, h.literal r hfits⟩
    · exact .inr (not_exists.1 hreading)
  · intro h
    have hreturns : ∀ v, parseNum token = .ok v ↔ Literal token v := by
      intro v
      refine ⟨fun hv => ?_, Literal.parseNum_eq⟩
      rcases h with ⟨w, hw⟩ | hnone
      · have heq := hw.parseNum_eq
        rw [hv, Except.ok.injEq] at heq
        rwa [heq]
      · obtain ⟨r, rfl, hfits⟩ := (parseNum_eq_ok_iff token v).1 hv
        exact absurd hfits (hnone r)
    refine ⟨hreturns, fun hnot => ?_, ?_⟩
    · exact parseNum_of_not_ok fun v hv => hnot v ((hreturns v).1 hv)
    · rw [isNum_eq_true_iff]
      exact exists_congr hreturns

theorem not_acceptsLiterals_leftover : ¬AcceptsLiterals "12abc".toList := by
  intro h
  obtain ⟨r, ⟨-, htail, -⟩, -⟩ := (h.returns 12).1 (by decide)
  have habc := r.tail_eq
  rw [htail] at habc
  exact absurd habc (by decide)

end Literals

end Utlib.Parser
