import Mathlib.Data.List.DropRight
import Utlib.Fields
import Utlib.FileTree

/-! POSIX paths: how they are read and joined, their lexical normal form, and where they lead in a
tree of directories and files. -/

universe v

namespace Utlib

@[ext] structure Path where
  absolute : Bool
  parts : List (List Char)
deriving DecidableEq

namespace Path

abbrev dot : List Char := ['.']

abbrev dotdot : List Char := ['.', '.']

/-- A slash at the end is kept as an empty last name. -/
def parse (s : List Char) : Path :=
  let names := (s.splitOn '/').filter (· ≠ [])
  ⟨s.head? = some '/', if names ≠ [] ∧ s.getLast? = some '/' then names ++ [[]] else names⟩

def base (p : Path) : List (List Char) :=
  if p.parts.getLast? = some [] then p.parts.dropLast else p.parts

/-- `operator/`: an absolute right operand replaces the left one. -/
def append (p q : Path) : Path :=
  if q.absolute then q
  else if q.parts = [] ∧ p.base ≠ [] then ⟨p.absolute, p.base ++ [[]]⟩
  else ⟨p.absolute, p.base ++ q.parts⟩

instance : Div Path := ⟨append⟩

theorem absolute_div (p q : Path) : (p / q).absolute = (q.absolute || p.absolute) := by
  change (append p q).absolute = _
  rw [append]
  cases hq : q.absolute with
  | true => rw [if_pos rfl, hq, Bool.true_or]
  | false =>
    rw [if_neg Bool.false_ne_true, Bool.false_or]
    split <;> rfl

def parentPath (p : Path) : Path := ⟨p.absolute, p.parts.dropLast⟩

theorem prefix_parentPath {p : Path} {pre : List (List Char)} (hpre : pre <+: p.parts)
    (hne : pre ≠ p.parts) : pre <+: p.parentPath.parts := by
  by_cases hnil : p.parts = []
  · rw [hnil] at hpre hne
    exact absurd (List.prefix_nil.1 hpre) hne
  · rw [← List.dropLast_append_getLast hnil] at hpre hne
    exact (List.prefix_concat_iff.1 hpre).resolve_left hne

/-- `concat`: the text is added to the last name. -/
def concat (p : Path) (s : List Char) : Path :=
  match p.parts.getLast? with
  | none => ⟨p.absolute, [s]⟩
  | some c => ⟨p.absolute, p.parts.dropLast ++ [c ++ s]⟩

theorem concat_ne (p : Path) {s : List Char} (hs : s ≠ []) : p.concat s ≠ p := by
  intro h
  have hparts := congrArg Path.parts h
  rw [concat] at hparts
  cases hlast : p.parts.getLast? with
  | none =>
    rw [hlast, List.getLast?_eq_none_iff.1 hlast] at hparts
    cases hparts
  | some c =>
    rw [hlast] at hparts
    have hlast' := congrArg List.getLast? hparts
    rw [hlast] at hlast'
    simp [hs] at hlast'

section Names

def filename (p : Path) : List Char := p.parts.getLast?.getD []

/-- What stands in front of the last period -/
def beforePeriod (f : List Char) : List Char := (f.rdropWhile (· ≠ '.')).dropLast

/-- `stem()`: a file name with no period but a leading one is all stem. -/
def stemOf (f : List Char) : List Char :=
  if f = dot ∨ f = dotdot ∨ beforePeriod f = [] then f else beforePeriod f

def stem (p : Path) : List Char := stemOf p.filename

def extension (p : Path) : List Char := p.filename.drop p.stem.length

theorem rdropWhile_period {e : List Char} (he : '.' ∉ e) (x : List Char) :
    (x ++ '.' :: e).rdropWhile (· ≠ '.') = x ++ ['.'] := by
  rw [List.rdropWhile, List.reverse_append, List.reverse_cons, List.append_assoc,
    List.dropWhile_append_of_pos]
  · simp
  · intro c hc
    rw [List.mem_reverse] at hc
    simp only [ne_eq, decide_not, Bool.not_eq_true', decide_eq_false_iff_not]
    exact fun heq => he (heq ▸ hc)

theorem stemOf_append {x e : List Char} (hx : x ≠ []) (he : '.' ∉ e)
    (hdots : x ++ '.' :: e ≠ dotdot) :
    stemOf (x ++ '.' :: e) = x := by
  have hbefore : beforePeriod (x ++ '.' :: e) = x := by
    rw [beforePeriod, rdropWhile_period he, List.dropLast_concat]
  have hdot : x ++ '.' :: e ≠ dot := by
    intro heq
    have hlen := congrArg List.length heq
    have hpos := List.length_pos_of_ne_nil hx
    simp at hlen
    omega
  rw [stemOf, hbefore, if_neg (by simp [hdot, hdots, hx])]

theorem stemOf_eq_self {f : List Char} (h : '.' ∉ f.tail) : stemOf f = f := by
  have hbefore : beforePeriod f = [] := by
    cases f with
    | nil => rfl
    | cons c t =>
      by_cases hc : c = '.'
      · have hperiod := rdropWhile_period (show '.' ∉ t from h) []
        rw [List.nil_append] at hperiod
        rw [hc, beforePeriod, hperiod]
        rfl
      · have hnone : (c :: t).rdropWhile (· ≠ '.') = [] := by
          rw [List.rdropWhile_eq_nil_iff]
          intro d hd
          have hne : d ≠ '.' := by
            rintro rfl
            rcases List.mem_cons.1 hd with heq | hd
            · exact hc heq.symm
            · exact h hd
          simpa using hne
        rw [beforePeriod, hnone]
        rfl
  rw [stemOf, if_pos (.inr (.inr hbefore))]

/-- A file name with an extension, or one without -/
theorem exists_extension (f : List Char) :
    (∃ x e, x ≠ [] ∧ '.' ∉ e ∧ f = x ++ '.' :: e) ∨ '.' ∉ f.tail := by
  by_cases h : '.' ∈ f.tail
  · cases f with
    | nil => cases h
    | cons c t =>
      obtain ⟨as, bs, heq, has⟩ := List.eq_append_cons_of_mem (List.mem_reverse.2 h)
      refine .inl ⟨c :: bs.reverse, as.reverse, List.cons_ne_nil _ _, by simpa using has, ?_⟩
      rw [List.tail_cons, List.reverse_eq_iff] at heq
      rw [heq]
      simp
  · exact .inr h

theorem stemOf_begins (f : List Char) : stemOf f <+: f := by
  rw [stemOf]
  split
  · exact List.prefix_refl f
  · exact (List.dropLast_prefix _).trans (List.rdropWhile_prefix _ f)

theorem stem_append_extension (p : Path) : p.stem ++ p.extension = p.filename :=
  List.prefix_iff_eq_append.1 (stemOf_begins p.filename)

/-- Only the last name may be empty, which stands for a slash at the end. -/
structure WellFormed (p : Path) : Prop where
  not_mem_slash : ∀ c ∈ p.parts, '/' ∉ c
  ne_nil : ∀ c ∈ p.parts.dropLast, c ≠ []

theorem wellFormed_parse (s : List Char) : (parse s).WellFormed := by
  have hnames : ∀ c ∈ (s.splitOn '/').filter (· ≠ []), '/' ∉ c ∧ c ≠ [] := by
    intro c hc
    rw [List.mem_filter] at hc
    exact ⟨Fields.not_mem_of_mem_splitOn hc.1, of_decide_eq_true hc.2⟩
  rw [parse]
  generalize (s.splitOn '/').filter (· ≠ []) = names at hnames
  split
  · constructor
    · intro c hc
      rcases List.mem_append.1 hc with hc | hc
      · exact (hnames c hc).1
      · rw [List.mem_singleton.1 hc]
        exact List.not_mem_nil
    · intro c hc
      rw [List.dropLast_concat] at hc
      exact (hnames c hc).2
  · exact ⟨fun c hc => (hnames c hc).1, fun c hc => (hnames c (List.dropLast_subset _ hc)).2⟩

theorem parse_of_name {g : List Char} (hne : g ≠ []) (hslash : '/' ∉ g) :
    parse g = ⟨false, [g]⟩ := by
  have hhead : g.head? ≠ some '/' := fun h => hslash (List.mem_of_head? h)
  have hlast : g.getLast? ≠ some '/' := fun h => hslash (List.mem_of_getLast? h)
  have hnames : [g].filter (· ≠ []) = [g] := by simp [hne]
  simp only [parse, List.splitOn_eq_singleton hslash, hnames, hhead, hlast, and_false,
    decide_false, if_false]

/-- A sibling with another file name -/
theorem parentPath_div {p : Path} (hp : p.WellFormed) {g : List Char} (hne : g ≠ [])
    (hslash : '/' ∉ g) : p.parentPath / parse g = ⟨p.absolute, p.parts.dropLast ++ [g]⟩ := by
  have hbase : p.parentPath.base = p.parts.dropLast := by
    rw [base, if_neg]
    · rfl
    · intro hlast
      exact hp.ne_nil [] (List.mem_of_getLast? hlast) rfl
  change append p.parentPath (parse g) = _
  rw [append, parse_of_name hne hslash, if_neg Bool.false_ne_true,
    if_neg fun h => List.cons_ne_nil _ _ h.1, hbase]
  rfl

end Names

section Normal

/-- The names of a normal form, the innermost one first, with one more name read. -/
def normalStep (absolute : Bool) (names : List (List Char)) (c : List Char) : List (List Char) :=
  if c = [] ∨ c = dot then names
  else if c = dotdot then
    match names with
    | [] => if absolute then [] else [dotdot]
    | a :: rest => if a = dotdot then dotdot :: names else rest
  else c :: names

/-- `lexically_normal()` -/
def normal (p : Path) : List (List Char) :=
  p.parts.foldl (normalStep p.absolute) []

/-- After normalisation `p` is `target` or a path below it. -/
def Inside (target p : Path) : Prop :=
  p.absolute = target.absolute ∧ ∃ rel, p.normal = rel ++ target.normal ∧ dotdot ∉ rel

instance (target p : Path) : Decidable (Inside target p) :=
  decidable_of_iff (p.absolute = target.absolute ∧ target.normal <:+ p.normal ∧
      dotdot ∉ p.normal.take (p.normal.length - target.normal.length)) <| by
    rw [Inside]
    apply and_congr_right
    intro _
    constructor
    · rintro ⟨⟨rel, hrel⟩, hdots⟩
      refine ⟨rel, hrel.symm, ?_⟩
      simpa [← hrel] using hdots
    · rintro ⟨rel, hrel, hdots⟩
      rw [hrel]
      exact ⟨List.suffix_append rel _, by simpa using hdots⟩

end Normal

section Resolution

variable {F : Type v} (t : FileTree (List Char) F) (l : List (List Char))

def step (l : List (List Char)) (c : List Char) : List (List Char) :=
  if c = [] ∨ c = dot then l
  else if c = dotdot then l.tail
  else c :: l

/-- Where the names lead from `l`, each through an existing directory. -/
def resolve : List (List Char) → List (List Char) → Option (List (List Char))
  | l, [] => some l
  | l, c :: names => if t.node l = some .dir then resolve (step l c) names else none

variable {t l}

theorem resolve_congr {u : FileTree (List Char) F}
    (h : ∀ q, u.node q = some .dir ↔ t.node q = some .dir) (names : List (List Char)) :
    resolve u l names = resolve t l names := by
  induction names generalizing l with
  | nil => rfl
  | cons c names ih =>
    rw [resolve, resolve, ih]
    simp only [h]

theorem node_step_of_dir (hl : t.node l = some .dir) {c : List Char}
    (hc : t.node (step l c) ≠ some .dir) : step l c = c :: l := by
  by_cases hdot : c = [] ∨ c = dot
  · rw [step, if_pos hdot] at hc
    exact absurd hl hc
  · by_cases hdots : c = dotdot
    · rw [step, if_neg hdot, if_pos hdots] at hc
      exact absurd (t.dir_of_suffix hl (List.tail_suffix l)) hc
    · rw [step, if_neg hdot, if_neg hdots]

theorem resolve_eq {names : List (List Char)}
    (h : ∀ pre, pre <+: names → pre ≠ names → t.node (pre.foldl step l) = some .dir) :
    resolve t l names = some (names.foldl step l) := by
  induction names generalizing l with
  | nil => rfl
  | cons c names ih =>
    have hl : t.node l = some .dir := h [] List.nil_prefix (List.cons_ne_nil c names).symm
    rw [resolve, if_pos hl]
    apply ih
    intro pre hpre hne
    apply h (c :: pre)
    · exact List.cons_prefix_cons.2 ⟨rfl, hpre⟩
    · simpa using hne

end Resolution

end Path

end Utlib
