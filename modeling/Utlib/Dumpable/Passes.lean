import Mathlib.Data.List.TakeWhile
import Utlib.Dumpable.Basic

/-! How often `dump` goes over its format string. -/

namespace Utlib.Dumpable

theorem bind_eq_ok {ε α β : Type} {x : Except ε α} {f : α → Except ε β} {b : β} :
    (x >>= f) = .ok b ↔ ∃ a, x = .ok a ∧ f a = .ok b := by
  cases x with
  | ok a =>
    constructor
    · intro h
      exact ⟨a, rfl, h⟩
    · rintro ⟨_, ha, h⟩
      cases ha
      exact h
  | error e =>
    constructor
    · intro h
      cases h
    · rintro ⟨_, ha, _⟩
      cases ha

theorem guard_eq_ok {α : Type} {holds : Bool} {a b : α} {e : Failure} :
    (if holds then Except.ok a else Except.error e) = .ok b ↔ holds = true ∧ b = a := by
  cases holds with
  | true => simp [eq_comm]
  | false => simp

theorem counted_eq_ok {holds : Int → Bool} {n m : Nat} :
    counted holds n = .ok m ↔ holds n = true ∧ m = n := guard_eq_ok

theorem checked_eq_ok {holds : Int → Bool} {n m : Int} :
    checked holds n = .ok m ↔ holds n = true ∧ m = n := guard_eq_ok

section Cursors

variable {w : Widths} {opt : DumpOpt} {reader : DataProvider} {nrStart offsetStart : Int}

/-- Neither cursor has moved backwards. -/
def Onward (s t : State) : Prop := s.bcnt ≤ t.bcnt ∧ s.ccnt ≤ t.ccnt

theorem onward_dumpData {size : Nat} {s t : State} (h : dumpData w opt reader size s = .ok t) :
    Onward s t := by
  obtain ⟨bcnt, hbcnt, ht⟩ := bind_eq_ok.1 h
  obtain ⟨-, rfl⟩ := counted_eq_ok.1 hbcnt
  cases ht
  exact ⟨Nat.le_add_right _ _, le_rfl⟩

theorem onward_dumpChar {shown : Int → Char} {s t : State}
    (h : dumpChar w reader shown s = .ok t) : Onward s t := by
  rw [dumpChar] at h
  split at h
  · obtain ⟨ccnt, hccnt, ht⟩ := bind_eq_ok.1 h
    obtain ⟨-, rfl⟩ := counted_eq_ok.1 hccnt
    cases ht
    exact ⟨le_rfl, Nat.le_add_right _ _⟩
  · cases h
    exact ⟨le_rfl, le_rfl⟩

theorem onward_directive {c : Char} {s t : State}
    (h : directive w opt reader nrStart offsetStart c s = .ok t) : Onward s t := by
  unfold directive at h
  split at h
  · obtain ⟨_, -, ht⟩ := bind_eq_ok.1 h
    cases ht
    exact ⟨le_rfl, le_rfl⟩
  · obtain ⟨_, -, ht⟩ := bind_eq_ok.1 h
    cases ht
    exact ⟨le_rfl, le_rfl⟩
  · exact onward_dumpChar h
  · exact onward_dumpChar h
  · exact onward_dumpData h
  · exact onward_dumpData h
  · exact onward_dumpData h
  · exact onward_dumpData h
  · exact onward_dumpData h
  · exact onward_dumpData h
  · cases h

theorem onward_step {c : Char} {s t : State}
    (h : step w opt reader nrStart offsetStart s c = .ok t) : Onward s t := by
  unfold step at h
  split at h
  · split at h
    · cases h
      exact ⟨le_rfl, le_rfl⟩
    · split at h
      · obtain ⟨_, -, ht⟩ := bind_eq_ok.1 h
        cases ht
        exact ⟨le_rfl, le_rfl⟩
      · cases h
        exact ⟨le_rfl, le_rfl⟩
  · split at h
    · obtain ⟨_, -, ht⟩ := bind_eq_ok.1 h
      cases ht
      exact ⟨le_rfl, le_rfl⟩
    · obtain ⟨u, hu, ht⟩ := bind_eq_ok.1 h
      cases ht
      have honward := onward_directive hu
      exact honward

theorem scan_cons_eq_ok {c : Char} {cs : List Char} {s t : State} :
    scan w opt reader nrStart offsetStart (c :: cs) s = .ok t ↔
      ∃ u, step w opt reader nrStart offsetStart s c = .ok u ∧
        scan w opt reader nrStart offsetStart cs u = .ok t := by
  rw [scan, List.foldlM_cons, bind_eq_ok]
  rfl

theorem scan_append_eq_ok {cs ds : List Char} {s t : State} :
    scan w opt reader nrStart offsetStart (cs ++ ds) s = .ok t ↔
      ∃ u, scan w opt reader nrStart offsetStart cs s = .ok u ∧
        scan w opt reader nrStart offsetStart ds u = .ok t := by
  rw [scan, List.foldlM_append, bind_eq_ok]
  rfl

theorem onward_scan {cs : List Char} {s t : State}
    (h : scan w opt reader nrStart offsetStart cs s = .ok t) : Onward s t := by
  induction cs generalizing s with
  | nil =>
    cases h
    exact ⟨le_rfl, le_rfl⟩
  | cons c cs ih =>
    obtain ⟨u, hu, ht⟩ := scan_cons_eq_ok.1 h
    have hfirst := onward_step hu
    have hrest := ih ht
    exact ⟨hfirst.1.trans hrest.1, hfirst.2.trans hrest.2⟩

/-- Without running into a limit, a pass that goes on has moved one of the cursors. -/
theorem pass_consumes {fmt : List Char} {s t : State}
    (h : pass w opt reader nrStart offsetStart fmt s = .ok (t, true)) :
    s.bcnt + s.ccnt < t.bcnt + t.ccnt := by
  obtain ⟨before, hbefore, h⟩ := bind_eq_ok.1 h
  obtain ⟨u, hu, h⟩ := bind_eq_ok.1 h
  obtain ⟨after, hafter, h⟩ := bind_eq_ok.1 h
  obtain ⟨-, rfl⟩ := counted_eq_ok.1 hbefore
  obtain ⟨-, rfl⟩ := counted_eq_ok.1 hafter
  simp only [pure, Except.pure, Except.ok.injEq, Prod.mk.injEq, decide_eq_true_eq] at h
  obtain ⟨rfl, hne⟩ := h
  have honward := onward_scan hu
  rw [Onward] at honward
  omega

theorem lt_length_of_isSome {data : List UInt8} {offset : Nat}
    (h : (dataProvider data offset 1).isSome) : offset < data.length := by
  rw [dataProvider_one, Option.isSome_map] at h
  by_contra hge
  rw [List.getElem?_eq_none (by omega)] at h
  cases h

/-- Both cursors are inside the data at the beginning of each pass. -/
theorem loop_ne_running (data : List UInt8) (fmt : List Char) {passes : Nat} {s : State}
    (h : 2 * data.length < passes + s.bcnt + s.ccnt + 2) (t : State) :
    loop w opt (dataProvider data) nrStart offsetStart fmt passes s ≠ .running t := by
  induction passes generalizing s with
  | zero =>
    rw [loop]
    split
    · next hmore =>
      have hbcnt := lt_length_of_isSome hmore.1
      have hccnt := lt_length_of_isSome hmore.2
      omega
    · exact nofun
  | succ passes ih =>
    rw [loop]
    split
    · split
      · next u consumed hpass =>
        split
        · next hconsumed =>
          subst hconsumed
          have hprogress := pass_consumes hpass
          exact ih (by omega)
        · exact nofun
      · exact nofun
    · exact nofun

end Cursors

inductive Directive
  | lineNumber
  | offset
  | text
  | character
  | byte
  | word
  | long

def Directive.letter : Directive → Char
  | lineNumber => 'n'
  | offset => 'p'
  | text => 'a'
  | character => 'c'
  | byte => 'b'
  | word => 'w'
  | long => 'l'

inductive Item
  | ordinary (c : Char) (h : c ≠ '%' ∧ c ≠ '\x00')
  | directive (width : List (Fin 10)) (d : Directive)

def Item.spell : Item → List Char
  | ordinary c _ => [c]
  | directive width d => '%' :: width.map (fun k : Fin 10 => Nat.digitChar k) ++ [d.letter]

/-- The format string consists of ordinary characters and directives. -/
def Spelled (fmt : List Char) : Prop := ∃ items : List Item, fmt = items.flatMap Item.spell

theorem Item.not_nul (i : Item) : '\x00' ∉ i.spell := by
  cases i with
  | ordinary c h =>
    rw [spell, List.mem_singleton]
    exact h.2.symm
  | directive width d =>
    have hdigit : ∀ k : Fin 10, '\x00' ≠ Nat.digitChar k := by decide
    have hletter : '\x00' ≠ d.letter := by cases d <;> decide
    simp only [spell, List.cons_append, List.mem_cons, List.mem_append, List.mem_map,
      List.not_mem_nil, or_false]
    rintro (hpercent | ⟨k, -, hk⟩ | hlast)
    · cases hpercent
    · exact hdigit k hk.symm
    · exact hletter hlast

theorem Spelled.takeWhile {fmt : List Char} (h : Spelled fmt) :
    fmt.takeWhile (· ≠ '\x00') = fmt := by
  obtain ⟨items, rfl⟩ := h
  rw [List.takeWhile_eq_self_iff]
  intro c hc
  obtain ⟨i, -, hi⟩ := List.mem_flatMap.1 hc
  rw [decide_eq_true_iff]
  rintro rfl
  exact i.not_nul hi

section Reading

def IsLetter (c : Char) : Prop := c ∈ ['n', 'p', 'a', 'c', 'b', 'w', 'l']

instance (c : Char) : Decidable (IsLetter c) :=
  inferInstanceAs (Decidable (c ∈ ['n', 'p', 'a', 'c', 'b', 'w', 'l']))

/-- Whether the characters leave a directive open, if they can be read from where one is open or
not -/
def reads : Bool → List Char → Option Bool
  | opened, [] => some opened
  | false, c :: cs => reads (c = '%') cs
  | true, c :: cs =>
    if '0' ≤ c ∧ c ≤ '9' then reads true cs else if IsLetter c then reads false cs else none

theorem Directive.isLetter (d : Directive) : IsLetter d.letter := by
  cases d <;> decide

theorem Directive.not_digit (d : Directive) : ¬('0' ≤ d.letter ∧ d.letter ≤ '9') := by
  cases d <;> decide

theorem digit_digitChar (k : Fin 10) : '0' ≤ Nat.digitChar k ∧ Nat.digitChar k ≤ '9' := by
  revert k
  decide

theorem reads_width (width : List (Fin 10)) (cs : List Char) :
    reads true (width.map (fun k : Fin 10 => Nat.digitChar k) ++ cs) = reads true cs := by
  induction width with
  | nil => rfl
  | cons k width ih =>
    rw [List.map_cons, List.cons_append, reads, if_pos (digit_digitChar k), ih]

theorem reads_letter (d : Directive) (cs : List Char) :
    reads true (d.letter :: cs) = reads false cs := by
  rw [reads, if_neg d.not_digit, if_pos d.isLetter]

theorem reads_spell (i : Item) (cs : List Char) : reads false (i.spell ++ cs) = reads false cs := by
  cases i with
  | ordinary c h =>
    rw [Item.spell, List.singleton_append, reads, decide_eq_false h.1]
  | directive width d =>
    rw [Item.spell, List.cons_append, List.cons_append, reads, decide_eq_true rfl,
      List.append_assoc, reads_width, List.singleton_append, reads_letter]

theorem reads_items (items : List Item) (cs : List Char) :
    reads false (items.flatMap Item.spell ++ cs) = reads false cs := by
  induction items with
  | nil => rfl
  | cons i items ih => rw [List.flatMap_cons, List.append_assoc, reads_spell, ih]

theorem Spelled.reads {fmt : List Char} (h : Spelled fmt) :
    Dumpable.reads false fmt = some false := by
  obtain ⟨items, rfl⟩ := h
  rw [← List.append_nil (items.flatMap Item.spell), reads_items]
  rfl

variable (opt : DumpOpt) (reader : DataProvider) (nrStart offsetStart : Int)

theorem exists_directive {c : Char} (h : IsLetter c) (s : State) :
    ∃ t, directive .unbounded opt reader nrStart offsetStart c s = .ok t := by
  have hchar (shown : Int → Char) : ∃ t, dumpChar .unbounded reader shown s = .ok t := by
    rw [dumpChar]
    split <;> exact ⟨_, rfl⟩
  simp only [IsLetter, List.mem_cons, List.not_mem_nil, or_false] at h
  rcases h with rfl | rfl | rfl | rfl | rfl | rfl | rfl
  · exact ⟨_, rfl⟩
  · exact ⟨_, rfl⟩
  · exact hchar _
  · exact hchar _
  · exact ⟨_, rfl⟩
  · exact ⟨_, rfl⟩
  · exact ⟨_, rfl⟩

theorem directive_of_not_isLetter {c : Char} (hdigit : ¬('0' ≤ c ∧ c ≤ '9')) (h : ¬IsLetter c)
    (s : State) :
    directive .unbounded opt reader nrStart offsetStart c s = .error .fatalError := by
  unfold directive
  split
  · exact absurd (by decide) h
  · exact absurd (by decide) h
  · exact absurd (by decide) h
  · exact absurd (by decide) h
  · exact absurd (by decide) h
  · exact absurd (by decide) hdigit
  · exact absurd (by decide) h
  · exact absurd (by decide) hdigit
  · exact absurd (by decide) h
  · exact absurd (by decide) hdigit
  · rfl

/-- A character is taken in if it can be read, and is a fatal error if it cannot. -/
theorem step_cases (s : State) (c : Char) (cs : List Char) :
    (∃ u, step .unbounded opt reader nrStart offsetStart s c = .ok u ∧
      reads s.ctrl (c :: cs) = reads u.ctrl cs) ∨
    (step .unbounded opt reader nrStart offsetStart s c = .error .fatalError ∧
      reads s.ctrl (c :: cs) = none) := by
  cases hs : s.ctrl with
  | false =>
    have hclosed : ¬s.ctrl = true := by simp [hs]
    rw [reads, step, if_pos hclosed]
    left
    by_cases hpercent : c = '%'
    · rw [if_pos hpercent, decide_eq_true hpercent]
      exact ⟨_, rfl, rfl⟩
    · rw [if_neg hpercent, decide_eq_false hpercent]
      by_cases hnewline : c = '\n'
      · rw [if_pos hnewline]
        exact ⟨_, rfl, by rw [hs]⟩
      · rw [if_neg hnewline]
        exact ⟨_, rfl, by rw [hs]⟩
  | true =>
    have hopen : ¬¬s.ctrl = true := by simp [hs]
    rw [reads, step, if_neg hopen]
    by_cases hdigit : '0' ≤ c ∧ c ≤ '9'
    · rw [if_pos hdigit, if_pos hdigit]
      exact .inl ⟨_, rfl, by rw [hs]⟩
    · rw [if_neg hdigit, if_neg hdigit]
      by_cases hletter : IsLetter c
      · obtain ⟨t, ht⟩ := exists_directive opt reader nrStart offsetStart hletter s
        rw [if_pos hletter, ht]
        exact .inl ⟨_, rfl, rfl⟩
      · rw [if_neg hletter, directive_of_not_isLetter _ _ _ _ hdigit hletter]
        exact .inr ⟨rfl, rfl⟩

/-- What can be read gets `dump` to the end of a pass. -/
theorem exists_scan {cs : List Char} {s : State} {b : Bool} (h : reads s.ctrl cs = some b) :
    ∃ t, scan .unbounded opt reader nrStart offsetStart cs s = .ok t ∧ t.ctrl = b := by
  induction cs generalizing s with
  | nil =>
    refine ⟨s, rfl, ?_⟩
    cases hs : s.ctrl <;> rw [hs] at h <;> exact Option.some.inj h
  | cons c cs ih =>
    obtain ⟨u, hu, hreads⟩ | ⟨-, hnone⟩ := step_cases opt reader nrStart offsetStart s c cs
    · obtain ⟨t, ht, hctrl⟩ := ih (hreads ▸ h)
      exact ⟨t, scan_cons_eq_ok.2 ⟨u, hu, ht⟩, hctrl⟩
    · rw [hnone] at h
      cases h

theorem scan_eq_error {cs : List Char} {s : State} (h : reads s.ctrl cs = none) :
    scan .unbounded opt reader nrStart offsetStart cs s = .error .fatalError := by
  induction cs generalizing s with
  | nil => cases hs : s.ctrl <;> rw [hs] at h <;> cases h
  | cons c cs ih =>
    rw [scan, List.foldlM_cons]
    obtain ⟨u, hu, hreads⟩ | ⟨herror, -⟩ := step_cases opt reader nrStart offsetStart s c cs
    · rw [hu]
      exact ih (hreads ▸ h)
    · rw [herror]
      rfl

/-- A format string that can be read over and over never makes `dump` fail. -/
theorem loop_ne_failed {fmt : List Char} {b : Bool}
    (h : reads b (fmt.takeWhile (· ≠ '\x00')) = some b) {passes : Nat} {s : State}
    (hs : s.ctrl = b) (e : Failure) :
    loop .unbounded opt reader nrStart offsetStart fmt passes s ≠ .failed e := by
  induction passes generalizing s with
  | zero =>
    rw [loop]
    split <;> exact nofun
  | succ passes ih =>
    rw [← hs] at h
    obtain ⟨t, ht, hctrl⟩ := exists_scan opt reader nrStart offsetStart h
    rw [hs] at h
    have hpass : pass .unbounded opt reader nrStart offsetStart fmt s =
        .ok (t, t.bcnt + t.ccnt ≠ s.bcnt + s.ccnt) := by
      rw [pass, ht]
      rfl
    rw [loop]
    split
    · simp only [hpass]
      split
      · exact ih (hctrl.trans hs)
      · exact nofun
    · exact nofun

end Reading

theorem exists_stopped {outcome : Outcome} (hrunning : ∀ s, outcome ≠ .running s)
    (hfailed : ∀ e, outcome ≠ .failed e) : ∃ s, outcome = .stopped s := by
  cases outcome with
  | stopped s => exact ⟨s, rfl⟩
  | failed e => exact absurd rfl (hfailed e)
  | running s => exact absurd rfl (hrunning s)

/-- With unbounded counters the loop stops in time whatever the format string is, and it comes
to its regular end unless the format string has a character after `%` that means nothing. -/
theorem dump_stops (data : List UInt8) (opt : DumpOpt) (fmt : List Char)
    (nrStart offsetStart : Int) :
    let outcome := dump .unbounded opt (dataProvider data) nrStart offsetStart fmt
      (2 * data.length + 1)
    (∀ s, outcome ≠ .running s) ∧ (Spelled fmt → ∃ s, outcome = .stopped s) := by
  intro outcome
  have hstops : ∀ s, outcome ≠ .running s := loop_ne_running data fmt (by simp; omega)
  refine ⟨hstops, fun hspelled => exists_stopped hstops ?_⟩
  have hreads : reads false (fmt.takeWhile (· ≠ '\x00')) = some false := by
    rw [hspelled.takeWhile]
    exact hspelled.reads
  exact loop_ne_failed _ _ _ _ hreads rfl

end Utlib.Dumpable
