import Utlib.Synchronizable.Atomic

/-! `Backed` (wrappers/Backed.h): a live value with a snapshot, in any number of threads. -/

namespace Utlib.Backed

open Transitions Synchronizable

/-- What the mutex is not for: the stored value, the last live one, and what a getter may read
elsewhere -/
structure Live (T E : Type) where
  value : T
  live : T
  external : E

/-- The snapshot, and the rest -/
abbrev Data (T E : Type) := Option T × Live T E

inductive Result (T : Type)
  | done
  | value (v : T)
  | threw

/-- `current` and `backed` return references. `live` is to read what the one of `current` leads
to. -/
inductive Call (T E : Type)
  | clear
  | current
  | live
  | backed
  | record
  | invalidate
  | assign (v : T)
  | change (f : E → E)

/-- A getter gives a value, or it throws. -/
abbrev Getter (T E : Type) := Live T E → Option T

/-- The results of a thread, from the first call to the last one -/
abbrev Method (T E : Type) := Code (Option T) (Live T E) (List (Result T))

variable {Θ T E : Type}

def stored : Getter T E := fun l => some l.value

section Methods

variable [Inhabited T] (getter : Getter T E)

def clear : Method T E :=
  .synchronized
    (.other (fun l => { l with value := default }) fun _ =>
      .member (fun _ => none) fun _ => .ret [.done])
    .ret

/-- `live = getter(); return live;` -/
def current : Method T E :=
  .other id fun l =>
    match getter l with
    | some v => .other (fun l => { l with live := v }) fun _ => .ret [.done]
    | none => .throw

/-- The reference to `*cache` is followed after the block only. -/
def backed : Method T E :=
  .synchronized
    (.member id fun cache =>
      match cache with
      | some _ => .ret [.done]
      | none =>
        .other id fun l =>
          match getter l with
          | some v => .member (fun _ => some v) fun _ => .ret [.done]
          | none => .throw)
    .ret

def record : Method T E :=
  .synchronized
    (.other id fun l =>
      match getter l with
      | some v => .member (fun _ => some v) fun _ => .ret [.done]
      | none => .throw)
    .ret

def invalidate : Method T E :=
  .synchronized (.member (fun _ => none) fun _ => .ret [.done]) .ret

def Call.code : Call T E → Method T E
  | clear => Backed.clear
  | current => Backed.current getter
  | live => .other id fun l => .ret [.value l.live]
  | backed => Backed.backed getter
  | record => Backed.record getter
  | invalidate => Backed.invalidate
  | assign v => .other (fun l => { l with value := v }) fun _ => .ret [.done]
  | change f => .other (fun l => { l with external := f l.external }) fun _ => .ret [.done]

/-- What a thread does that makes some calls and goes on after exceptions -/
def program : List (Call T E) → List (Result T) → Method T E
  | [], results => .ret results
  | call :: calls, results =>
    .attempt (call.code getter) (program calls (results ++ [.threw])) fun r =>
      program calls (results ++ r)

def Result.code : Result T → Method T E
  | done => .ret [done]
  | value v => .ret [value v]
  | threw => .throw

end Methods

section Actions

/-- What takes place at one moment. `current` calls the getter, and stores the value later. -/
inductive Action (T E : Type)
  | clear
  | get
  | store (v : T)
  | live
  | backed
  | record
  | invalidate
  | assign (v : T)
  | change (f : E → E)

variable [Inhabited T] (getter : Getter T E)

/-- What an action is for, with nobody else around -/
def Action.apply : Action T E → Data T E → Result T × Data T E
  | clear, (_, l) => (.done, (none, { l with value := default }))
  | get, (cache, l) =>
    match getter l with
    | some v => (.value v, (cache, l))
    | none => (.threw, (cache, l))
  | store v, (cache, l) => (.done, (cache, { l with live := v }))
  | live, (cache, l) => (.value l.live, (cache, l))
  | backed, (some v, l) => (.done, (some v, l))
  | backed, (none, l) =>
    match getter l with
    | some v => (.done, (some v, l))
    | none => (.threw, (none, l))
  | record, (cache, l) =>
    match getter l with
    | some v => (.done, (some v, l))
    | none => (.threw, (cache, l))
  | invalidate, (_, l) => (.done, (none, l))
  | assign v, (cache, l) => (.done, (cache, { l with value := v }))
  | change f, (cache, l) => (.done, (cache, { l with external := f l.external }))

/-- What a call begins with. Only `current` has more to do. -/
def Call.first : Call T E → Action T E
  | clear => .clear
  | current => .get
  | live => .live
  | backed => .backed
  | record => .record
  | invalidate => .invalidate
  | assign v => .assign v
  | change f => .change f

/-- What is left of a call after its first action -/
def Call.rest : Call T E → Result T → Method T E
  | current, .value v => .other (fun l => { l with live := v }) fun _ => .ret [.done]
  | _, r => r.code

end Actions

section Atomic

variable [Inhabited T] [DecidableEq Θ] {getter : Getter T E}

/-- A call does its first action in one step. -/
theorem step_call {a : Atomic Θ (Option T) (Live T E) (List (Result T))} {t : Θ} {call : Call T E}
    {frames : List (Frame (Option T) (Live T E) (List (Result T)))} (hframes : entered frames = 0)
    (h : a.thread t = ⟨call.code getter, frames⟩) :
    a.Step t (a.put (call.first.apply getter a.data).2 t
      ⟨call.rest (call.first.apply getter a.data).1, frames⟩) := by
  obtain ⟨⟨cache, l⟩, thread⟩ := a
  cases call with
  | clear => exact Atomic.step_synchronized hframes h rfl
  | invalidate => exact Atomic.step_synchronized hframes h rfl
  | record =>
    cases hl : getter l with
    | some v =>
      simp only [Call.first, Action.apply, hl]
      exact Atomic.step_synchronized (o := .value [.done]) (d := (some v, l)) hframes h
        (by simp only [Code.eval, id_eq, hl])
    | none =>
      simp only [Call.first, Action.apply, hl]
      exact Atomic.step_synchronized (o := .thrown) hframes h (by simp only [Code.eval, id_eq, hl])
  | backed =>
    cases cache with
    | some v => exact Atomic.step_synchronized (o := .value [.done]) hframes h rfl
    | none =>
      cases hl : getter l with
      | some v =>
        simp only [Call.first, Action.apply, hl]
        exact Atomic.step_synchronized (o := .value [.done]) (d := (some v, l)) hframes h
          (by simp only [Code.eval, id_eq, hl])
      | none =>
        simp only [Call.first, Action.apply, hl]
        exact Atomic.step_synchronized (o := .thrown) hframes h
          (by simp only [Code.eval, id_eq, hl])
  | current =>
    cases hl : getter l with
    | some v =>
      simp only [Call.first, Action.apply, hl]
      refine Atomic.step_keep ?_
      rw [h]
      simp only [Call.code, current, Thread.next, hl]
      rfl
    | none =>
      simp only [Call.first, Action.apply, hl]
      refine Atomic.step_keep ?_
      rw [h]
      simp only [Call.code, current, Thread.next, hl]
      rfl
  | live =>
    rw [Atomic.Step, Atomic.step, h]
    rfl
  | assign v =>
    rw [Atomic.Step, Atomic.step, h]
    rfl
  | change f =>
    rw [Atomic.Step, Atomic.step, h]
    rfl

end Atomic

section Discipline

theorem bounded_of_getter {n : ℕ} {next : T → Method T E} (h : ∀ v, (next v).Bounded n)
    (o : Option T) : (match o with | some v => next v | none => .throw : Method T E).Bounded n := by
  cases o with
  | some v => exact h v
  | none => exact .throw

variable [Inhabited T] (getter : Getter T E)

/-- The getter is called at most once in a block. -/
theorem disciplined_code (call : Call T E) : (call.code getter).Disciplined := by
  cases call with
  | clear => exact .synchronized (.other fun _ => .member fun _ => .ret) fun _ => .ret
  | current =>
    refine .other fun l => ?_
    cases getter l with
    | some v => exact .other fun _ => .ret
    | none => exact .throw
  | live => exact .other fun _ => .ret
  | backed =>
    refine .synchronized (.member fun cache => ?_) fun _ => .ret
    cases cache with
    | some v => exact .ret
    | none => exact .other fun l => bounded_of_getter (fun _ => .member fun _ => .ret) (getter l)
  | record =>
    exact .synchronized
      (.other fun l => bounded_of_getter (fun _ => .member fun _ => .ret) (getter l)) fun _ => .ret
  | invalidate => exact .synchronized (.member fun _ => .ret) fun _ => .ret
  | assign v => exact .other fun _ => .ret
  | change f => exact .other fun _ => .ret

theorem disciplined_program (calls : List (Call T E)) (results : List (Result T)) :
    (program getter calls results).Disciplined := by
  induction calls generalizing results with
  | nil => exact .ret
  | cons call calls ih => exact .attempt (disciplined_code getter call) (ih _) fun r => ih _

end Discipline

section History

/-- An action that has taken place, and its result -/
structure Event (Θ T E : Type) where
  thread : Θ
  action : Action T E
  result : Result T

section OfThread

variable [DecidableEq Θ] {t : Θ}

/-- What a thread has done of all that has taken place -/
def ofThread (t : Θ) (history : List (Event Θ T E)) : List (Event Θ T E) :=
  history.filter fun e => e.thread = t

theorem ofThread_self (e : Event Θ T E) (history : List (Event Θ T E)) :
    ofThread e.thread (history ++ [e]) = ofThread e.thread history ++ [e] := by
  rw [ofThread, List.filter_append, List.filter_singleton, decide_eq_true rfl]
  rfl

theorem ofThread_of_ne {e : Event Θ T E} (history : List (Event Θ T E)) (hne : t ≠ e.thread) :
    ofThread t (history ++ [e]) = ofThread t history := by
  rw [ofThread, List.filter_append, List.filter_singleton, decide_eq_false hne.symm]
  exact List.append_nil _

end OfThread

variable [Inhabited T] {getter : Getter T E} {d d' : Data T E} {history : List (Event Θ T E)}
  {t : Θ}

/-- What an action does when it takes place as a whole -/
def Takes (getter : Getter T E) (d : Data T E) (e : Event Θ T E) (d' : Data T E) : Prop :=
  e.action.apply getter d = (e.result, d')

/-- The actions that change the snapshot for those that refer to it -/
def Action.Renews : Action T E → Prop
  | clear => True
  | record => True
  | invalidate => True
  | _ => False

theorem backed_cache (h : Takes getter d ⟨t, .backed, .done⟩ d') : ∃ v, d'.1 = some v := by
  obtain ⟨cache, l⟩ := d
  rw [Takes] at h
  cases cache with
  | some v =>
    cases h
    exact ⟨v, rfl⟩
  | none =>
    rw [Action.apply] at h
    split at h
    · next v _ =>
      cases h
      exact ⟨v, rfl⟩
    · cases h

theorem takes_keeps {e : Event Θ T E} {v : T} (h : Takes getter d e d') (hd : d.1 = some v)
    (hkeep : ¬e.action.Renews) : d'.1 = some v := by
  obtain ⟨cache, l⟩ := d
  obtain ⟨t, action, result⟩ := e
  obtain rfl : cache = some v := hd
  cases action with
  | clear => exact absurd trivial hkeep
  | record => exact absurd trivial hkeep
  | invalidate => exact absurd trivial hkeep
  | get =>
    rw [Takes, Action.apply] at h
    split at h <;> cases h <;> rfl
  | store v =>
    cases h
    rfl
  | live =>
    cases h
    rfl
  | backed =>
    cases h
    rfl
  | assign v =>
    cases h
    rfl
  | change f =>
    cases h
    rfl

/-- What `backed` has returned a reference to stays the same until it is taken anew. -/
theorem backed_stable {between : List (Event Θ T E)}
    (h : Runs (Takes getter) d (history ++ ⟨t, .backed, .done⟩ :: between) d')
    (hkeep : ∀ e ∈ between, ¬e.action.Renews) :
    ∃ d₁ v, Runs (Takes getter) d (history ++ [⟨t, .backed, .done⟩]) d₁ ∧ d₁.1 = some v ∧
      d'.1 = some v := by
  obtain ⟨d₀, hbefore, hlater⟩ := h.split
  cases hlater with
  | @head _ d₁ _ _ _ hbacked hlater =>
    obtain ⟨v, hv⟩ := backed_cache hbacked
    refine ⟨d₁, v, hbefore.append (.single hbacked), hv, ?_⟩
    clear hbacked h
    induction between generalizing d₁ with
    | nil =>
      cases hlater
      exact hv
    | cons e between ih =>
      cases hlater with
      | head hstep hlater =>
        exact ih (fun e hmem => hkeep e (List.mem_cons_of_mem _ hmem)) hlater
          (takes_keeps hstep hv (hkeep e List.mem_cons_self))

/-- The calls that the actions of a thread make up, with their results -/
inductive Made (t : Θ) : List (Event Θ T E) → List (Call T E × Result T) → Prop
  | nil : Made t [] []
  | once {mine : List (Event Θ T E)} {made : List (Call T E × Result T)} {call : Call T E}
      {r : Result T} : Made t mine made → (call = .current → r = .threw) →
        Made t (mine ++ [⟨t, call.first, r⟩]) (made ++ [(call, r)])
  | current {mine : List (Event Θ T E)} {made : List (Call T E × Result T)} {v : T} :
      Made t mine made →
        Made t (mine ++ [⟨t, .get, .value v⟩, ⟨t, .store v, .done⟩]) (made ++ [(.current, .done)])

omit [Inhabited T] in
theorem rest_eq_code {call : Call T E} {r : Result T} (h : call = .current → r = .threw) :
    call.rest r = r.code := by
  cases call with
  | current =>
    rw [h rfl]
    rfl
  | clear => rfl
  | live => rfl
  | backed => rfl
  | record => rfl
  | invalidate => rfl
  | assign v => rfl
  | change f => rfl

/-- A getter that has been called gives a value or throws. -/
theorem get_cases (getter : Getter T E) (d : Data T E) :
    (∃ v, (Action.get : Action T E).apply getter d = (.value v, d)) ∨
      (Action.get : Action T E).apply getter d = (.threw, d) := by
  rw [Action.apply]
  cases getter d.2 with
  | some v => exact .inl ⟨v, rfl⟩
  | none => exact .inr rfl

/-- What catches the exceptions of a call, and what follows -/
def guardOf (getter : Getter T E) (rest : List (Call T E)) (results : List (Result T)) :
    List (Frame (Option T) (Live T E) (List (Result T))) :=
  [.handler (program getter rest (results ++ [.threw])) fun r => program getter rest (results ++ r)]

/-- Where a thread is after the actions `mine`: between two calls, about to make one, about to store
the value in `current`, or about to use the result of the last call. -/
inductive Position (getter : Getter T E) (calls : List (Call T E)) (t : Θ)
    (mine : List (Event Θ T E)) : Thread (Option T) (Live T E) (List (Result T)) → Prop
  | between {made : List (Call T E × Result T)} {rest : List (Call T E)} : Made t mine made →
      calls = made.map Prod.fst ++ rest →
        Position getter calls t mine ⟨program getter rest (made.map Prod.snd), []⟩
  | about {made : List (Call T E × Result T)} {call : Call T E} {rest : List (Call T E)} :
      Made t mine made → calls = made.map Prod.fst ++ call :: rest →
        Position getter calls t mine ⟨call.code getter, guardOf getter rest (made.map Prod.snd)⟩
  | amid {before : List (Event Θ T E)} {made : List (Call T E × Result T)}
      {rest : List (Call T E)} {v : T} : Made t before made →
      mine = before ++ [⟨t, .get, .value v⟩] → calls = made.map Prod.fst ++ .current :: rest →
        Position getter calls t mine
          ⟨Call.current.rest (.value v), guardOf getter rest (made.map Prod.snd)⟩
  | after {made : List (Call T E × Result T)} {call : Call T E} {r : Result T}
      {rest : List (Call T E)} : Made t mine (made ++ [(call, r)]) →
      calls = made.map Prod.fst ++ call :: rest →
        Position getter calls t mine ⟨r.code, guardOf getter rest (made.map Prod.snd)⟩

/-- A thread that has done its first action in a call -/
theorem position_first {calls : List (Call T E)} {mine : List (Event Θ T E)}
    {made : List (Call T E × Result T)} {call : Call T E} {rest : List (Call T E)} (d : Data T E)
    (hmade : Made t mine made) (hcalls : calls = made.map Prod.fst ++ call :: rest) :
    Position getter calls t (mine ++ [⟨t, call.first, (call.first.apply getter d).1⟩])
      ⟨call.rest (call.first.apply getter d).1, guardOf getter rest (made.map Prod.snd)⟩ := by
  have honce (h : call = .current → (call.first.apply getter d).1 = .threw) :
      Position getter calls t (mine ++ [⟨t, call.first, (call.first.apply getter d).1⟩])
        ⟨call.rest (call.first.apply getter d).1, guardOf getter rest (made.map Prod.snd)⟩ := by
    rw [rest_eq_code h]
    exact .after (.once hmade h) hcalls
  by_cases hcurrent : call = .current
  · subst hcurrent
    rcases get_cases getter d with ⟨v, hget⟩ | hget
    · rw [Call.first, hget]
      exact .amid hmade rfl hcalls
    · refine honce fun _ => ?_
      rw [Call.first, hget]
  · exact honce fun h => absurd h hcurrent

variable [DecidableEq Θ]

abbrev Threads (Θ T E : Type) := Atomic Θ (Option T) (Live T E) (List (Result T))

structure Explains (getter : Getter T E) (d : Data T E) (calls : Θ → List (Call T E))
    (history : List (Event Θ T E)) (a : Threads Θ T E) : Prop where
  sequential : Runs (Takes getter) d history a.data
  position : ∀ t, Position getter (calls t) t (ofThread t history) (a.thread t)

/-- The step of a thread is one action, or it cannot be seen in the history. -/
theorem Explains.step {calls : Θ → List (Call T E)} {a a' : Threads Θ T E}
    (h : Explains getter d calls history a) (hstep : a.Step t a') :
    Explains getter d calls history a' ∨
      ∃ action result, Explains getter d calls (history ++ [⟨t, action, result⟩]) a' := by
  have hsame {b : Threads Θ T E} (hb : a.Step t b) : a' = b :=
    Option.some.inj (hstep.symm.trans hb)
  have hquiet {th : Thread (Option T) (Live T E) (List (Result T))}
      (hth : Position getter (calls t) t (ofThread t history) th) :
      Explains getter d calls history (a.put a.data t th) := by
    refine ⟨h.sequential, fun t' => ?_⟩
    by_cases hne : t' = t
    · rw [hne, Atomic.thread_put_self]
      exact hth
    · rw [Atomic.thread_put_of_ne hne]
      exact h.position t'
  have hseen {action : Action T E} {th : Thread (Option T) (Live T E) (List (Result T))}
      (hth : Position getter (calls t) t
        (ofThread t history ++ [⟨t, action, (action.apply getter a.data).1⟩]) th) :
      Explains getter d calls (history ++ [⟨t, action, (action.apply getter a.data).1⟩])
        (a.put (action.apply getter a.data).2 t th) := by
    refine ⟨h.sequential.append (.single rfl), fun t' => ?_⟩
    by_cases hne : t' = t
    · rw [hne, Atomic.thread_put_self, ofThread_self ⟨t, action, _⟩]
      exact hth
    · rw [Atomic.thread_put_of_ne hne, ofThread_of_ne history hne]
      exact h.position t'
  generalize hth : a.thread t = th
  have hposition := h.position t
  rw [hth] at hposition
  cases hposition with
  | @between made rest hmade hcalls =>
    cases rest with
    | nil =>
      rw [Atomic.Step, Atomic.step, hth] at hstep
      cases hstep
    | cons call rest =>
      have hnext : (a.thread t).next a.data = some (.keep, a.data,
          ⟨call.code getter, guardOf getter rest (made.map Prod.snd)⟩) := by
        rw [hth]
        rfl
      rw [hsame (Atomic.step_keep hnext)]
      exact .inl (hquiet (.about hmade hcalls))
  | @about made call rest hmade hcalls =>
    rw [hsame (step_call rfl hth)]
    exact .inr ⟨call.first, _, hseen (position_first a.data hmade hcalls)⟩
  | @amid before made rest v hmade hmine hcalls =>
    have hnext : (a.thread t).next a.data = some (.keep, (a.data.1, { a.data.2 with live := v }),
        ⟨.ret [.done], guardOf getter rest (made.map Prod.snd)⟩) := by
      rw [hth]
      rfl
    rw [hsame (Atomic.step_keep hnext)]
    have hlast : Made t (ofThread t history ++ [⟨t, .store v, .done⟩])
        (made ++ [(.current, .done)]) := by
      rw [hmine, List.append_assoc]
      exact .current hmade
    exact .inr ⟨.store v, .done, hseen (.after hlast hcalls)⟩
  | @after made call r rest hmade hcalls =>
    have hnext : (a.thread t).next a.data = some (.keep, a.data,
        ⟨program getter rest ((made ++ [(call, r)]).map Prod.snd), []⟩) := by
      rw [hth, List.map_append]
      cases r <;> rfl
    rw [hsame (Atomic.step_keep hnext)]
    refine .inl (hquiet (.between hmade ?_))
    rw [hcalls, List.map_append, List.append_assoc]
    rfl

theorem explains_start (d : Data T E) (calls : Θ → List (Call T E)) :
    Explains getter d calls [] (Atomic.start d fun t => program getter (calls t) []) :=
  ⟨.refl, fun _ => .between .nil rfl⟩

/-- The calls of any number of threads take place one action at a time, each of them between the
beginning and the end of its call: there is a history for each state of a run that grows by actions
of the thread that makes a step only, that has been made without interleaving, and that has all
results of all threads which are between two calls. Whenever the mutex is free, what a reference
from `backed` leads to is what it has led to at first, if it has not been renewed since. -/
theorem backed_linearizable (getter : Getter T E) (d : Data T E) (calls : Θ → List (Call T E)) :
    ∃ Explained : State Θ (Option T) (Live T E) (List (Result T)) → List (Event Θ T E) → Prop,
      Explained (start d fun t => program getter (calls t) []) [] ∧
        (∀ s t s' history, Explained s history → Step s t s' →
          Explained s' history ∨ ∃ action result, Explained s' (history ++ [⟨t, action, result⟩])) ∧
          ∀ s history, Explained s history →
            (∃ d', Runs (Takes getter) d history d' ∧ d'.2 = s.data.2 ∧
              (s.mutex = .free → d' = s.data)) ∧
              (∀ t, (s.thread t).frames = [] → ∃ made rest, Made t (ofThread t history) made ∧
                calls t = made.map Prod.fst ++ rest ∧
                  (s.thread t).code = program getter rest (made.map Prod.snd)) ∧
                ∀ before t between, history = before ++ ⟨t, .backed, .done⟩ :: between →
                  (∀ e ∈ between, ¬e.action.Renews) → s.mutex = .free →
                    ∃ d₁ v, Runs (Takes getter) d (before ++ [⟨t, .backed, .done⟩]) d₁ ∧
                      d₁.1 = some v ∧ s.data.1 = some v := by
  refine ⟨fun s history => ∃ a, Refines s a ∧ Explains getter d calls history a, ?_, ?_, ?_⟩
  · exact ⟨_, refines_start d fun t => disciplined_program getter (calls t) [],
      explains_start d calls⟩
  · rintro s t s' history ⟨a, hrefines, hexplains⟩ hstep
    rcases hrefines.step hstep with hrefines | ⟨a', hstep', hrefines⟩
    · exact .inl ⟨a, hrefines, hexplains⟩
    · rcases hexplains.step hstep' with hexplains | ⟨action, result, hexplains⟩
      · exact .inl ⟨a', hrefines, hexplains⟩
      · exact .inr ⟨action, result, a', hrefines, hexplains⟩
  · rintro s history ⟨a, hrefines, hexplains⟩
    refine ⟨⟨a.data, hexplains.sequential, hrefines.other, fun hfree => (hrefines.free hfree).1⟩,
      fun t hframes => ?_, fun before t between hhistory hkeep hfree => ?_⟩
    · have hposition := hexplains.position t
      have hdepth : (s.thread t).depth = 0 := by
        rw [Thread.depth, hframes]
        rfl
      rw [hrefines.outside t hdepth] at hposition
      generalize s.thread t = th at hposition hframes
      cases hposition with
      | between hmade hcalls => exact ⟨_, _, hmade, hcalls, rfl⟩
      | about hmade hcalls => cases hframes
      | amid hmade hmine hcalls => cases hframes
      | after hmade hcalls => cases hframes
    · rw [← (hrefines.free hfree).1]
      exact backed_stable (hhistory ▸ hexplains.sequential) hkeep

end History

end Utlib.Backed
