import Mathlib.Data.Nat.Find
import Utlib.Loop
import Utlib.Parser

/-! `parseSeq` (io/Parser.cpp). -/

namespace Utlib.Parser

open Numeral Strtol

/-- `(char)` of a `long` -/
def toChar (v : Int) : Char := Char.ofNat (v % 2 ^ 8).toNat

/-- The token behind its prefix -/
def behindPrefix (token : List Char) : List Char :=
  let rest := if ['$'].isPrefixOf token then token.drop 1 else token
  if ['0', 'x'].isPrefixOf token then rest.drop 2 else rest

def evened (digits : List Char) : List Char :=
  if digits.length % 2 = 1 then '0' :: digits else digits

/-- What the decoding loop does with the two characters at `i`. -/
def decodeRound (token digits : List Char) (s : UInt32 × List Char) :
    Except ParseError (List Char) ⊕ UInt32 × List Char :=
  if s.1.toNat < digits.length then
    match stol ((digits.drop s.1.toNat).take 2) 16 with
    | .ok v => .inr (s.1 + 2, s.2 ++ [toChar v])
    | .error _ => .inl (.error (.num token))
  else .inl (.ok s.2)

/-- `none` if the loop has not ended after so many rounds. -/
def parseSeq (rounds : Nat) (token : List Char) : Option (Except ParseError (List Char)) :=
  let digits := behindPrefix token
  if token = digits then some (.ok token)
  else Loop.run (decodeRound token (evened digits)) rounds (0, [])

def Yields (token : List Char) (r : Except ParseError (List Char)) : Prop :=
  ∃ rounds, parseSeq rounds token = some r

/-- A token with a prefix, and what stands behind it -/
inductive Prefixed : List Char → List Char → Prop
  | dollar (digits : List Char) : Prefixed ('$' :: digits) digits
  | hexadecimal (digits : List Char) : Prefixed ('0' :: 'x' :: digits) digits

def bigEndian (s : List Char) : Nat := s.foldl (fun n c => 2 ^ 8 * n + c.toNat) 0

structure DecodesBytes (token : List Char) : Prop where
  plain : (∀ digits, ¬Prefixed token digits) → Yields token (.ok token)
  bytes : ∀ digits, Prefixed token digits → (∀ c ∈ digits, IsDigit 16 c) →
    ∃ result, Yields token (.ok result) ∧ result.length = (digits.length + 1) / 2 ∧
      (∀ c ∈ result, c.toNat < 2 ^ 8) ∧ bigEndian result = value 16 digits
  throws : ∀ digits, Prefixed token digits → (∃ c ∈ digits, ¬IsDigit 16 c) →
    Yields token (.error (.num token))

/-- Two characters that a number begins with -/
def Convertible (pair : List Char) : Prop :=
  ∃ a b, pair = [a, b] ∧
    (IsDigit 16 a ∨ (isSpace a = true ∨ a = '+' ∨ a = '-') ∧ IsDigit 16 b)

def pairAt (digits : List Char) (k : Nat) : List Char := (digits.drop (2 * k)).take 2

/-- All characters are digits, and the counter of the loop passes the last one; or one of the pairs
before its overflow is caught. -/
def Decodable (digits : List Char) : Prop :=
  (∀ c ∈ digits, IsDigit 16 c) ∧ digits.length ≤ 2 ^ 32 - 2 ∨
    ∃ k < 2 ^ 31, 2 * k < digits.length ∧ ¬Convertible (pairAt (evened digits) k)

section Pairs

variable {a b : Char}

theorem Convertible.exists_stol (h : Convertible [a, b]) : ∃ v, stol [a, b] 16 = .ok v := by
  have hreading : ∀ r : Reading 16 [a, b], r.radix = 16 → r.digits.length ≤ 2 →
      ∃ v, stol [a, b] 16 = .ok v := by
    intro r hradix hlen
    exact ⟨r.value, (stol_eq_ok_iff _ _ _).2 ⟨r, rfl, r.fitsLong hradix.le (by omega)⟩⟩
  obtain ⟨a', b', heq, h⟩ := h
  cases heq
  rcases h with ha | ⟨ha | ha, hb⟩
  · exact hreading (.plain [] [] [a, b] (by simp) (.inl rfl) (by decide) (fun _ => rfl)
      (by simp [ha])) rfl (List.takeWhile_prefix _).length_le
  · refine hreading (.plain [a] [] [b] (by simpa using ha) (.inl rfl) (by decide) (fun _ => rfl)
      (by simp [hb])) rfl ?_
    exact (List.takeWhile_prefix _).length_le.trans (by simp)
  · refine hreading (.plain [] [a] [b] (by simp) (by simpa using ha) (by decide) (fun _ => rfl)
      (by simp [hb])) rfl ?_
    exact (List.takeWhile_prefix _).length_le.trans (by simp)

theorem convertible_of_stol {v : Int} (h : stol [a, b] 16 = .ok v) : Convertible [a, b] := by
  obtain ⟨r, -⟩ := (stol_eq_ok_iff _ _ _).1 h
  obtain ⟨spaces, sign, lead, radix, digits, tail, htext, hspace, hsign, hselects, hne, hdigit,
    -⟩ := r
  have hlen := congrArg List.length htext
  obtain ⟨d, ds, rfl⟩ := List.exists_cons_of_ne_nil hne
  have hd := hdigit d (by simp)
  cases hselects with
  | hexadecimal => simp at hlen; omega
  | octal hbase => cases hbase
  | decimal hbase => cases hbase
  | fixed =>
    simp only [List.nil_append, List.cons_append] at htext
    cases spaces with
    | nil =>
      rcases hsign with rfl | rfl | rfl
      · simp only [List.nil_append, List.cons.injEq] at htext
        exact ⟨a, b, rfl, .inl (htext.1 ▸ hd)⟩
      · simp only [List.nil_append, List.cons_append, List.cons.injEq] at htext
        exact ⟨a, b, rfl, .inr ⟨.inr (.inl htext.1), htext.2.1 ▸ hd⟩⟩
      · simp only [List.nil_append, List.cons_append, List.cons.injEq] at htext
        exact ⟨a, b, rfl, .inr ⟨.inr (.inr htext.1), htext.2.1 ▸ hd⟩⟩
    | cons s spaces =>
      simp only [List.cons_append, List.cons.injEq] at htext
      obtain ⟨rfl, htext⟩ := htext
      have hs := hspace a (by simp)
      simp at hlen
      obtain ⟨rfl, rfl⟩ : spaces = [] ∧ sign = [] := by
        constructor <;> rw [← List.length_eq_zero_iff] <;> omega
      simp only [List.nil_append, List.cons.injEq] at htext
      exact ⟨a, b, rfl, .inr ⟨.inl hs, htext.1 ▸ hd⟩⟩

theorem stol_of_isDigit (ha : IsDigit 16 a) (hb : IsDigit 16 b) :
    stol [a, b] 16 = .ok (value 16 [a, b] : Nat) := by
  let r : Reading 16 [a, b] :=
    .plain [] [] [a, b] (by simp) (.inl rfl) (by decide) (fun _ => rfl) (by simp [ha])
  have hdigits : r.digits = [a, b] := by simp [r, Reading.plain, ha, hb]
  have hvalue : r.value = (value 16 [a, b] : Nat) :=
    congrArg (fun ds => ((value 16 ds : Nat) : Int)) hdigits
  refine (stol_eq_ok_iff _ _ _).2 ⟨r, hvalue, ?_⟩
  rw [← hvalue]
  exact r.fitsLong le_rfl (by simp [hdigits])

end Pairs

section Decoding

variable {token digits : List Char}

theorem length_evened (digits : List Char) :
    (evened digits).length = 2 * ((digits.length + 1) / 2) := by
  rw [evened]
  split
  · rw [List.length_cons]
    omega
  · omega

theorem exists_pairAt {k : Nat} (hk : 2 * k < (evened digits).length) :
    ∃ a b, pairAt (evened digits) k = [a, b] ∧
      (evened digits).take (2 * (k + 1)) = (evened digits).take (2 * k) ++ [a, b] := by
  have hlen := length_evened digits
  have hnext : 2 * k + 1 < (evened digits).length := by omega
  refine ⟨(evened digits)[2 * k], (evened digits)[2 * k + 1], ?_, ?_⟩
  · rw [pairAt, List.drop_eq_getElem_cons hk, List.drop_eq_getElem_cons hnext]
    rfl
  · rw [Nat.mul_succ, List.take_add_one, List.take_add_one, List.append_assoc,
      List.getElem?_eq_getElem hk, List.getElem?_eq_getElem hnext]
    rfl

/-- The bytes of the first `k` pairs -/
def decoded (digits : List Char) (k : Nat) : List Char :=
  (List.range k).map fun j => toChar ((stol (pairAt digits j) 16).toOption.getD 0)

theorem decodeRound_of_convertible {i : UInt32} {k : Nat} (hi : i.toNat = 2 * k)
    (hlt : 2 * k < (evened digits).length) (hpair : Convertible (pairAt (evened digits) k))
    (token result : List Char) :
    decodeRound token (evened digits) (i, result) =
      .inr (i + 2, result ++ [toChar ((stol (pairAt (evened digits) k) 16).toOption.getD 0)]) := by
  obtain ⟨a, b, heq, -⟩ := exists_pairAt hlt
  obtain ⟨v, hv⟩ := (heq ▸ hpair).exists_stol
  have hchars : ((evened digits).drop (2 * k)).take 2 = [a, b] := heq
  rw [decodeRound]
  simp only [hi, if_pos hlt, hchars, hv, heq]
  rfl

theorem decodeRound_of_not_convertible {i : UInt32} {k : Nat} (hi : i.toNat = 2 * k)
    (hlt : 2 * k < (evened digits).length) (hpair : ¬Convertible (pairAt (evened digits) k))
    (token result : List Char) :
    decodeRound token (evened digits) (i, result) = .inl (.error (.num token)) := by
  obtain ⟨a, b, heq, -⟩ := exists_pairAt hlt
  have hchars : ((evened digits).drop (2 * k)).take 2 = [a, b] := heq
  rw [decodeRound]
  simp only [hi, if_pos hlt, hchars]
  cases hv : stol [a, b] 16 with
  | ok v => exact absurd (heq ▸ convertible_of_stol hv) hpair
  | error e => rfl

theorem toNat_ofNat_double {k : Nat} (hk : k < 2 ^ 31) : (UInt32.ofNat (2 * k)).toNat = 2 * k := by
  rw [UInt32.toNat_ofNat']
  exact Nat.mod_eq_of_lt (by omega)

theorem Prefixed.yields_iff (h : Prefixed token digits) (r : Except ParseError (List Char)) :
    Yields token r ↔ Loop.Ends (decodeRound token (evened digits)) (0, []) r := by
  have hrest : behindPrefix token = digits ∧ token ≠ digits := by
    cases h with
    | dollar => exact ⟨rfl, List.cons_ne_self _ _⟩
    | hexadecimal =>
      refine ⟨rfl, fun heq => ?_⟩
      have hlen := congrArg List.length heq
      simp only [List.length_cons] at hlen
      omega
  simp only [Yields, parseSeq, hrest.1, if_neg hrest.2]
  rfl

theorem yields_of_not_prefixed (h : ∀ digits, ¬Prefixed token digits) :
    Yields token (.ok token) := by
  refine ⟨0, ?_⟩
  have hrest : behindPrefix token = token := by
    have hdollar : ¬['$'] <+: token := by
      rintro ⟨digits, rfl⟩
      exact h digits (.dollar digits)
    have hhexadecimal : ¬['0', 'x'] <+: token := by
      rintro ⟨digits, rfl⟩
      exact h digits (.hexadecimal digits)
    rw [← List.isPrefixOf_iff_prefix] at hdollar hhexadecimal
    simp only [behindPrefix, if_neg hdollar, if_neg hhexadecimal]
  simp only [parseSeq, hrest, if_pos]

/-- As far as all pairs are convertible -/
theorem ends_iff_of_convertible {n : Nat} (hn : n ≤ 2 ^ 31)
    (hlt : 2 * n ≤ (evened digits).length)
    (hpairs : ∀ k < n, Convertible (pairAt (evened digits) k)) (token : List Char)
    (r : Except ParseError (List Char)) :
    Loop.Ends (decodeRound token (evened digits)) (0, []) r ↔
      Loop.Ends (decodeRound token (evened digits))
        (.ofNat (2 * n), decoded (evened digits) n) r := by
  refine Loop.ends_iff_of_rounds
    (fun k => (UInt32.ofNat (2 * k), decoded (evened digits) k)) fun k hk => ?_
  rw [decodeRound_of_convertible (toNat_ofNat_double (by omega)) (by omega) (hpairs k hk), decoded,
    decoded, List.range_succ, List.map_append, List.map_singleton, Nat.mul_succ, UInt32.ofNat_add]
  rfl

theorem yields_error (hprefixed : Prefixed token digits) {k : Nat} (hk : k < 2 ^ 31)
    (hlt : 2 * k < (evened digits).length) (hpair : ¬Convertible (pairAt (evened digits) k)) :
    Yields token (.error (.num token)) := by
  classical
  have hbad : ∃ k, ¬Convertible (pairAt (evened digits) k) := ⟨k, hpair⟩
  have hle := Nat.find_min' hbad hpair
  rw [hprefixed.yields_iff, ends_iff_of_convertible (n := Nat.find hbad) (by omega) (by omega)]
  · exact Loop.ends_of_inl (decodeRound_of_not_convertible (toNat_ofNat_double (by omega))
      (by omega) (Nat.find_spec hbad) token _)
  · intro j hj
    exact not_not.1 (Nat.find_min hbad hj)

theorem yields_ok (hprefixed : Prefixed token digits) (hlen : digits.length ≤ 2 ^ 32 - 2)
    (hpairs : ∀ k, 2 * k < (evened digits).length → Convertible (pairAt (evened digits) k)) :
    Yields token (.ok (decoded (evened digits) ((digits.length + 1) / 2))) := by
  have heven := length_evened digits
  have hi : (UInt32.ofNat (2 * ((digits.length + 1) / 2))).toNat = (evened digits).length := by
    rw [UInt32.toNat_ofNat', heven]
    exact Nat.mod_eq_of_lt (by omega)
  rw [hprefixed.yields_iff, ends_iff_of_convertible (n := (digits.length + 1) / 2) (by omega)
    (by omega) (fun k hk => hpairs k (by omega))]
  apply Loop.ends_of_inl
  rw [decodeRound, if_neg (by rw [hi]; exact Nat.lt_irrefl _)]

/-- The counter never passes so many digits. -/
theorem not_yields (hprefixed : Prefixed token digits) (hlen : 2 ^ 32 - 2 < digits.length)
    (hpairs : ∀ k < 2 ^ 31, Convertible (pairAt (evened digits) k))
    (r : Except ParseError (List Char)) : ¬Yields token r := by
  have heven := length_evened digits
  rw [hprefixed.yields_iff]
  apply Loop.not_ends fun s => s.1.toNat % 2 = 0
  · rintro ⟨i, result⟩ hi
    have hlt := i.toNat_lt
    have hk : i.toNat = 2 * (i.toNat / 2) := by
      dsimp only at hi
      omega
    refine ⟨_, decodeRound_of_convertible hk (by omega) (hpairs _ (by omega)) token result, ?_⟩
    simp only [UInt32.toNat_add, UInt32.toNat_ofNat]
    dsimp only at hi
    omega
  · rfl

theorem toNat_toChar {n : Nat} (hn : n < 2 ^ 8) : (toChar n).toNat = n := by
  have hmod : ((n : Int) % 2 ^ 8).toNat = n := by omega
  rw [toChar, hmod, Char.ofNat, dif_pos (.inl (by omega))]
  rfl

theorem bigEndian_concat (s : List Char) (c : Char) :
    bigEndian (s ++ [c]) = 2 ^ 8 * bigEndian s + c.toNat := by
  rw [bigEndian, List.foldl_append]
  rfl

theorem isDigit_of_mem_evened (h : ∀ c ∈ digits, IsDigit 16 c) :
    ∀ c ∈ evened digits, IsDigit 16 c := by
  rw [evened]
  split
  · exact List.forall_mem_cons.2 ⟨by decide, h⟩
  · exact h

theorem value_evened (digits : List Char) : value 16 (evened digits) = value 16 digits := by
  rw [evened]
  split
  · exact value_replicate_append 1 digits
  · rfl

theorem convertible_of_isDigit (h : ∀ c ∈ digits, IsDigit 16 c) {k : Nat}
    (hk : 2 * k < (evened digits).length) : Convertible (pairAt (evened digits) k) := by
  obtain ⟨a, b, heq, htake⟩ := exists_pairAt hk
  have ha : a ∈ evened digits := by
    apply List.mem_of_mem_take (i := 2 * (k + 1))
    rw [htake]
    simp
  exact ⟨a, b, heq, .inl (isDigit_of_mem_evened h a ha)⟩

theorem decoded_spec (h : ∀ c ∈ digits, IsDigit 16 c) {k : Nat}
    (hk : 2 * k ≤ (evened digits).length) :
    (∀ c ∈ decoded (evened digits) k, c.toNat < 2 ^ 8) ∧
      bigEndian (decoded (evened digits) k) = value 16 ((evened digits).take (2 * k)) := by
  induction k with
  | zero => exact ⟨by simp [decoded], rfl⟩
  | succ k ih =>
    obtain ⟨hbytes, hvalue⟩ := ih (by omega)
    have hpos : 2 * k < (evened digits).length := by omega
    obtain ⟨a, b, heq, htake⟩ := exists_pairAt hpos
    have hpair : ∀ c ∈ [a, b], IsDigit 16 c := by
      intro c hc
      apply isDigit_of_mem_evened h c
      apply List.mem_of_mem_take (i := 2 * (k + 1))
      rw [htake]
      exact List.mem_append_right _ hc
    have hlt : value 16 [a, b] < 2 ^ 8 := value_lt hpair
    have hstep : decoded (evened digits) (k + 1) =
        decoded (evened digits) k ++ [toChar (value 16 [a, b] : Nat)] := by
      rw [decoded, List.range_succ, List.map_append, List.map_singleton, heq,
        stol_of_isDigit (hpair a (by simp)) (hpair b (by simp))]
      rfl
    rw [hstep]
    constructor
    · rw [List.forall_mem_append]
      refine ⟨hbytes, ?_⟩
      simpa [toNat_toChar hlt] using hlt
    · have hab : value 16 [a, b] = 16 * (digitValue a).getD 0 + (digitValue b).getD 0 := by
        simp [value]
      have hsplit : (evened digits).take (2 * k) ++ [a, b] =
          ((evened digits).take (2 * k) ++ [a]) ++ [b] := by simp
      rw [bigEndian_concat, hvalue, toNat_toChar hlt, htake, hsplit, value_concat, value_concat,
        hab]
      omega

theorem not_isDigit_of_not_convertible {k : Nat} (hlt : 2 * k < digits.length)
    (hpair : ¬Convertible (pairAt (evened digits) k)) : ∃ c ∈ digits, ¬IsDigit 16 c := by
  by_contra hnone
  push Not at hnone
  have heven := length_evened digits
  exact hpair (convertible_of_isDigit hnone (by omega))

end Decoding

theorem decodesBytes_of_not_prefixed {token : List Char} (h : ∀ digits, ¬Prefixed token digits) :
    DecodesBytes token where
  plain _ := yields_of_not_prefixed h
  bytes digits hprefixed := absurd hprefixed (h digits)
  throws digits hprefixed := absurd hprefixed (h digits)

theorem Prefixed.unique {token ds es : List Char} (h : Prefixed token ds) (h' : Prefixed token es) :
    ds = es := by
  cases h with
  | dollar => cases h'; rfl
  | hexadecimal => cases h'; rfl

theorem Prefixed.yields_unique {token digits : List Char} (h : Prefixed token digits)
    {r r' : Except ParseError (List Char)} (hr : Yields token r) (hr' : Yields token r') : r = r' :=
  ((h.yields_iff r).1 hr).unique ((h.yields_iff r').1 hr')

theorem DecodesBytes.decodable {token digits : List Char} (h : DecodesBytes token)
    (hprefixed : Prefixed token digits) : Decodable digits := by
  by_contra hnot
  rw [Decodable, not_or, not_and] at hnot
  obtain ⟨hdigits, hpairs⟩ := hnot
  push Not at hpairs
  by_cases hlen : digits.length ≤ 2 ^ 32 - 2
  · have hbad : ∃ c ∈ digits, ¬IsDigit 16 c := by
      by_contra hnone
      push Not at hnone
      exact hdigits hnone hlen
    have heven := length_evened digits
    have hok := yields_ok hprefixed hlen fun k hk => hpairs k (by omega) (by omega)
    cases hprefixed.yields_unique hok (h.throws digits hprefixed hbad)
  · have hnever := not_yields hprefixed (by omega) fun k hk => hpairs k hk (by omega)
    by_cases hall : ∀ c ∈ digits, IsDigit 16 c
    · obtain ⟨result, hresult, -⟩ := h.bytes digits hprefixed hall
      exact hnever _ hresult
    · push Not at hall
      exact hnever _ (h.throws digits hprefixed hall)

theorem Prefixed.decodesBytes_of_isDigit {token digits : List Char}
    (hprefixed : Prefixed token digits) (hdigits : ∀ c ∈ digits, IsDigit 16 c)
    (hlen : digits.length ≤ 2 ^ 32 - 2) : DecodesBytes token where
  plain hplain := absurd hprefixed (hplain digits)
  bytes ds hds _ := by
    cases hprefixed.unique hds
    have heven := length_evened digits
    have hcount : 2 * ((digits.length + 1) / 2) ≤ (evened digits).length := by omega
    obtain ⟨hbytes, hvalue⟩ := decoded_spec hdigits hcount
    rw [← heven, List.take_length, value_evened] at hvalue
    refine ⟨_, yields_ok hprefixed hlen fun k => convertible_of_isDigit hdigits, ?_, hbytes, hvalue⟩
    rw [decoded, List.length_map, List.length_range]
  throws ds hds hbad := by
    cases hprefixed.unique hds
    obtain ⟨c, hc, hbad⟩ := hbad
    exact absurd (hdigits c hc) hbad

theorem Prefixed.decodesBytes_of_not_convertible {token digits : List Char} {k : Nat}
    (hprefixed : Prefixed token digits) (hk : k < 2 ^ 31) (hlt : 2 * k < digits.length)
    (hpair : ¬Convertible (pairAt (evened digits) k)) : DecodesBytes token where
  plain hplain := absurd hprefixed (hplain digits)
  bytes ds hds hall := by
    cases hprefixed.unique hds
    obtain ⟨c, hc, hbad⟩ := not_isDigit_of_not_convertible hlt hpair
    exact absurd (hall c hc) hbad
  throws ds hds _ := by
    cases hprefixed.unique hds
    have heven := length_evened digits
    exact yields_error hprefixed hk (by omega) hpair

/-- Just those tokens go wrong that have more digits than the counter of the loop can pass, or
another character for which no pair of characters is refused. -/
theorem decodesBytes_iff (token : List Char) :
    DecodesBytes token ↔ ∀ digits, Prefixed token digits → Decodable digits := by
  constructor
  · intro h digits hprefixed
    exact h.decodable hprefixed
  · intro h
    by_cases hprefixed : ∃ digits, Prefixed token digits
    · obtain ⟨digits, hprefixed⟩ := hprefixed
      rcases h digits hprefixed with ⟨hdigits, hlen⟩ | ⟨k, hk, hlt, hpair⟩
      · exact hprefixed.decodesBytes_of_isDigit hdigits hlen
      · exact hprefixed.decodesBytes_of_not_convertible hk hlt hpair
    · exact decodesBytes_of_not_prefixed (not_exists.1 hprefixed)

theorem not_decodesBytes_leftover : ¬DecodesBytes "$1g".toList := by
  intro h
  have hprefixed : Prefixed "$1g".toList "1g".toList := .dollar _
  have hok : Yields "$1g".toList (.ok ['\x01']) := ⟨2, by decide⟩
  have hthrows := h.throws _ hprefixed ⟨'g', by decide, by decide⟩
  cases hprefixed.yields_unique hok hthrows

end Utlib.Parser
