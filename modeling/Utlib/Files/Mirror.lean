import Utlib.Files.Directory

/-! After `mirrorDirectory` the destination has the paths, the kinds and the contents of the
source. -/

namespace Utlib.Files

open Program

/-- Neither directory contains the other. -/
structure Apart (source destination : Location) : Prop where
  source_outside : ¬destination <:+ source
  destination_outside : ¬source <:+ destination

theorem Apart.append {source destination : Location} (h : Apart source destination)
    (rel : Location) : ¬destination <:+ rel ++ source := by
  intro hsuffix
  rcases List.suffix_or_suffix_of_suffix hsuffix (List.suffix_append rel source) with hd | hs
  · exact h.source_outside hd
  · exact h.destination_outside hs

/-- A relative path is a file on one side and a directory on the other. -/
def Conflict (t : Disk) (source destination : Location) : Prop :=
  ∃ rel f, t.node (rel ++ source) = some .dir ∧ t.node (rel ++ destination) = some (.file f) ∨
    t.node (rel ++ source) = some (.file f) ∧ t.node (rel ++ destination) = some .dir

/-- The entry is a file that `syncDirectory` has to copy. -/
def pending (t : Disk) (source destination entry : Location) : Bool :=
  match t.node entry with
  | some (.file f) => decide (Outdated f (t.node (relative entry source ++ destination)))
  | _ => false

section Sync

variable (P : Platform) (t : Disk) (source destination : Location)

/-- The disk `u` is that of a `syncDirectory` from the disk `t`, with the entries of `done` dealt
with and `count` of them copied. -/
structure Synced (done : List Location) (count : Nat) (u : Disk) : Prop where
  frame : ∀ q, ¬destination <:+ q → u.node q = t.node q
  keeps_dir : ∀ q, t.node q = some .dir → u.node q = some .dir
  keeps_file : ∀ q f, t.node q = some (.file f) → ∃ g, u.node q = some (.file g)
  foreign : ∀ rel, t.node (rel ++ source) = none →
    u.node (rel ++ destination) = t.node (rel ++ destination)
  dir : ∀ rel, t.node (rel ++ source) = some .dir → u.node (rel ++ destination) = some .dir ∨
    u.node (rel ++ destination) = t.node (rel ++ destination) ∧ rel ++ source ∉ done
  untouched : ∀ rel f, t.node (rel ++ source) = some (.file f) →
    rel ++ source ∉ done ∨ ¬Outdated f (t.node (rel ++ destination)) →
      u.node (rel ++ destination) = t.node (rel ++ destination)
  copied : ∀ rel f, t.node (rel ++ source) = some (.file f) → rel ++ source ∈ done →
    Outdated f (t.node (rel ++ destination)) →
      ∃ n, u.node (rel ++ destination) = some (.file ⟨f.bytes, P.clock n⟩)
  free : ∀ rel f, t.node (rel ++ source) = some (.file f) → rel ++ source ∈ done →
    t.node (rel ++ destination) ≠ some .dir
  count_eq : count = (done.filter (pending t source destination)).length

variable {P t source destination} {done : List Location} {count : Nat} {u v : Disk}
  {rel : Location}

theorem synced_nil : Synced P t source destination [] 0 t := by
  constructor
  case frame => exact fun _ _ => rfl
  case keeps_dir => exact fun _ h => h
  case keeps_file => exact fun _ f h => ⟨f, h⟩
  case foreign => exact fun _ _ => rfl
  case dir => exact fun _ _ => .inr ⟨rfl, List.not_mem_nil⟩
  case untouched => exact fun _ _ _ _ => rfl
  case copied => simp
  case free => simp
  case count_eq => rfl

theorem Synced.source_eq (h : Synced P t source destination done count u)
    (hapart : Apart source destination) (rel : Location) :
    u.node (rel ++ source) = t.node (rel ++ source) :=
  h.frame _ (hapart.append rel)

/-- Directories of the source may be added to the destination at any time. -/
theorem Synced.of_dirs (h : Synced P t source destination done count u)
    (hv : ∀ q, v.node q = u.node q ∨ (∃ r, q = r ++ destination ∧
      t.node (r ++ source) = some .dir) ∧ u.node q = none ∧ v.node q = some .dir) :
    Synced P t source destination done count v := by
  have hother : ∀ r, t.node (r ++ source) ≠ some .dir →
      v.node (r ++ destination) = u.node (r ++ destination) := by
    intro r hr
    rcases hv (r ++ destination) with hq | ⟨⟨r', heq, hdir⟩, _⟩
    · exact hq
    · rw [← List.append_cancel_right heq] at hdir
      exact absurd hdir hr
  constructor
  case frame =>
    intro q hq
    rcases hv q with hvq | ⟨⟨r, rfl, _⟩, _⟩
    · rw [hvq, h.frame q hq]
    · exact absurd (List.suffix_append r destination) hq
  case keeps_dir =>
    intro q hq
    rcases hv q with hvq | ⟨_, _, hdir⟩
    · rw [hvq, h.keeps_dir q hq]
    · exact hdir
  case keeps_file =>
    intro q f hq
    obtain ⟨g, hg⟩ := h.keeps_file q f hq
    rcases hv q with hvq | ⟨_, hnone, _⟩
    · exact ⟨g, hvq.trans hg⟩
    · rw [hnone] at hg
      cases hg
  case foreign =>
    intro rel hrel
    rw [hother rel (by simp [hrel]), h.foreign rel hrel]
  case dir =>
    intro rel hrel
    rcases hv (rel ++ destination) with hvq | ⟨_, _, hdir⟩
    · rw [hvq]
      exact h.dir rel hrel
    · exact .inl hdir
  case untouched =>
    intro rel f hrel hdone
    rw [hother rel (by simp [hrel]), h.untouched rel f hrel hdone]
  case copied =>
    intro rel f hrel hdone hout
    rw [hother rel (by simp [hrel])]
    exact h.copied rel f hrel hdone hout
  case free => exact h.free
  case count_eq => exact h.count_eq

theorem Synced.makeDirs (h : Synced P t source destination done count u)
    (hdest : t.node destination = some .dir) (hrel : t.node (rel ++ source) = some .dir)
    (hv : u.makeDirs (rel ++ destination) = some v) :
    Synced P t source destination done count v := by
  apply h.of_dirs
  intro q
  rcases FileTree.node_makeDirs_cases hv q with hq | ⟨⟨l, hl⟩, hnone, hdir⟩
  · exact .inl hq
  · refine .inr ⟨?_, hnone, hdir⟩
    -- q lies below the destination, which exists
    rcases List.append_eq_append_iff.1 hl with ⟨r, rfl, hq⟩ | ⟨r, rfl, hq⟩
    · exact ⟨r, hq, t.dir_of_suffix hrel ⟨l, by simp⟩⟩
    · rw [u.dir_of_suffix (h.keeps_dir _ hdest) ⟨r, hq.symm⟩] at hnone
      cases hnone

theorem Synced.conflict_of_makeDirs (h : Synced P t source destination done count u)
    (hdest : t.node destination = some .dir) (hrel : t.node (rel ++ source) = some .dir)
    (hv : u.makeDirs (rel ++ destination) = none) : Conflict t source destination := by
  obtain ⟨q, f, ⟨l, hl⟩, hfile⟩ := FileTree.makeDirs_eq_none_iff.1 hv
  rcases List.append_eq_append_iff.1 hl with ⟨r, rfl, rfl⟩ | ⟨r, rfl, hq⟩
  · have hdir : t.node (r ++ source) = some .dir := t.dir_of_suffix hrel ⟨l, by simp⟩
    refine ⟨r, f, .inl ⟨hdir, ?_⟩⟩
    rcases h.dir r hdir with hu | ⟨hu, _⟩
    · rw [hu] at hfile
      cases hfile
    · rw [← hu, hfile]
  · rw [u.dir_of_suffix (h.keeps_dir _ hdest) ⟨r, hq.symm⟩] at hfile
    cases hfile

theorem pending_append {f : File} (hrel : t.node (rel ++ source) = some (.file f)) :
    pending t source destination (rel ++ source) =
      decide (Outdated f (t.node (rel ++ destination))) := by
  simp [pending, hrel]

theorem Synced.dir_done (h : Synced P t source destination done count u)
    (hrel : t.node (rel ++ source) = some .dir) (hu : u.node (rel ++ destination) = some .dir) :
    Synced P t source destination (done ++ [rel ++ source]) count u := by
  have hmem : ∀ r f, t.node (r ++ source) = some (.file f) →
      (r ++ source ∈ done ++ [rel ++ source] ↔ r ++ source ∈ done) := by
    intro r f hr
    have hne : r ≠ rel := by
      rintro rfl
      rw [hr] at hrel
      cases hrel
    simp [hne]
  constructor
  case frame => exact h.frame
  case keeps_dir => exact h.keeps_dir
  case keeps_file => exact h.keeps_file
  case foreign => exact h.foreign
  case dir =>
    intro r hr
    by_cases heq : r = rel
    · rw [heq]
      exact .inl hu
    · rcases h.dir r hr with hdir | ⟨hsame, hdone⟩
      · exact .inl hdir
      · exact .inr ⟨hsame, by simp [hdone, heq]⟩
  case untouched =>
    intro r f hr
    rw [hmem r f hr]
    exact h.untouched r f hr
  case copied =>
    intro r f hr
    rw [hmem r f hr]
    exact h.copied r f hr
  case free =>
    intro r f hr
    rw [hmem r f hr]
    exact h.free r f hr
  case count_eq =>
    have hpending : pending t source destination (rel ++ source) = false := by
      simp [pending, hrel]
    simp [List.filter_append, hpending, h.count_eq]

theorem Synced.file_done {f : File} (h : Synced P t source destination done count u)
    (hrel : t.node (rel ++ source) = some (.file f))
    (hfree : t.node (rel ++ destination) ≠ some .dir)
    (hother : ∀ q, q ≠ rel ++ destination → v.node q = u.node q)
    (hv : v.node (rel ++ destination) = if Outdated f (t.node (rel ++ destination)) then
      some (.file ⟨f.bytes, P.clock count⟩) else t.node (rel ++ destination)) :
    Synced P t source destination (done ++ [rel ++ source])
      (if Outdated f (t.node (rel ++ destination)) then count + 1 else count) v := by
  have hmem : ∀ r, r ++ source ∈ done ++ [rel ++ source] ↔ r ++ source ∈ done ∨ r = rel := by
    intro r
    simp
  have hnode : ∀ r, r ≠ rel → v.node (r ++ destination) = u.node (r ++ destination) := by
    intro r hr
    apply hother
    intro heq
    exact hr (List.append_cancel_right heq)
  have hfile : ∀ g, t.node (rel ++ source) = some (.file g) → g = f := by
    intro g hg
    rw [hrel] at hg
    cases hg
    rfl
  constructor
  case frame =>
    intro q hq
    rw [hother, h.frame q hq]
    rintro rfl
    exact hq (List.suffix_append rel destination)
  case keeps_dir =>
    intro q hq
    rw [hother, h.keeps_dir q hq]
    rintro rfl
    exact hfree hq
  case keeps_file =>
    intro q g hq
    by_cases heq : q = rel ++ destination
    · subst heq
      rw [hv]
      split
      · exact ⟨_, rfl⟩
      · exact ⟨g, hq⟩
    · rw [hother q heq]
      exact h.keeps_file q g hq
  case foreign =>
    intro r hr
    rw [hnode, h.foreign r hr]
    rintro rfl
    rw [hrel] at hr
    cases hr
  case dir =>
    intro r hr
    have hne : r ≠ rel := by
      rintro rfl
      rw [hrel] at hr
      cases hr
    rw [hnode r hne, hmem r]
    simp only [hne, or_false]
    exact h.dir r hr
  case untouched =>
    intro r g hr hcase
    by_cases heq : r = rel
    · subst heq
      rw [hfile g hr, hmem] at hcase
      rw [hv, if_neg]
      simpa using hcase
    · rw [hnode r heq]
      apply h.untouched r g hr
      rw [hmem] at hcase
      simpa [heq] using hcase
  case copied =>
    intro r g hr hdone hout
    by_cases heq : r = rel
    · subst heq
      rw [hfile g hr] at hout ⊢
      exact ⟨count, by rw [hv, if_pos hout]⟩
    · rw [hnode r heq]
      rw [hmem] at hdone
      exact h.copied r g hr (hdone.resolve_right heq) hout
  case free =>
    intro r g hr hdone
    by_cases heq : r = rel
    · rw [heq]
      exact hfree
    · rw [hmem] at hdone
      exact h.free r g hr (hdone.resolve_right heq)
  case count_eq =>
    rw [List.filter_append, List.length_append, ← h.count_eq, List.filter_singleton,
      pending_append hrel]
    by_cases hout : Outdated f (t.node (rel ++ destination)) <;> simp [hout]

/-- How `syncDirectory` can fail: a conflict made the file system throw. -/
def SyncFails (P : Platform) (t : Disk) (source destination : Location) (e : Error) (u : Disk) :
    Prop :=
  (∃ op q, e = .filesystemError op q ∧ op ≠ .recursiveDirectoryIterator) ∧
    Conflict t source destination ∧
    ∃ done count, Synced P t source destination done count u

/-- The part of `syncEntry` behind the directories, for a file. -/
theorem Synced.wp_update {a : Name} {f : File}
    (h : Synced P t source destination done count u)
    (hnode : t.node (a :: rel ++ source) = some (.file f))
    (hsrc : u.node (a :: rel ++ source) = some (.file f))
    (hdst : u.node (a :: rel ++ destination) = t.node (a :: rel ++ destination))
    (hdir : u.node (rel ++ destination) = some .dir) :
    wp (do
        if ← look fun t => needsUpdate t (a :: rel ++ source) (a :: rel ++ destination) then
          copyFile (a :: rel ++ source) (a :: rel ++ destination) (P.clock count)
          pure (count + 1)
        else pure count : Fs Nat)
      (fun n v => Synced P t source destination (done ++ [a :: rel ++ source]) n v)
      (SyncFails P t source destination) u := by
  rw [wp_bind, wp_look, needsUpdate_eq hsrc, hdst]
  by_cases hfree : t.node (a :: rel ++ destination) = some .dir
  · simp only [if_pos hfree]
    constructor
    · intro b hb
      cases hb
    · intro e he
      cases he
      exact ⟨⟨_, _, rfl, by simp⟩, ⟨a :: rel, f, .inr ⟨hnode, hfree⟩⟩, done, count, h⟩
  · simp only [if_neg hfree]
    constructor
    · intro b hb
      cases hb
      by_cases hout : Outdated f (t.node (a :: rel ++ destination))
      · simp only [hout, decide_true, if_true, wp_bind]
        have hne : a :: rel ++ destination ≠ [] := List.cons_ne_nil a _
        apply wp_copyFile hsrc hne hdir
        · rw [hdst]
          exact hfree
        · intro v hv
          have hcopied := h.file_done (v := v) hnode hfree
            (fun q hq => by rw [hv q, if_neg hq]) (by rw [hv, if_pos rfl, if_pos hout])
          rwa [if_pos hout] at hcopied
      · have hkept := h.file_done (v := u) hnode hfree (fun _ _ => rfl) (by rw [if_neg hout, hdst])
        rw [if_neg hout] at hkept
        simp only [hout, decide_false, Bool.false_eq_true, if_false, wp_pure]
        exact hkept
    · intro e he
      cases he

theorem wp_syncEntry (hapart : Apart source destination) (hdest : t.node destination = some .dir)
    (h : Synced P t source destination done count u) (a : Name)
    (hentry : (t.node (a :: rel ++ source)).isSome) (hnew : a :: rel ++ source ∉ done) :
    wp (syncEntry P source destination count (a :: rel ++ source))
      (fun n v => Synced P t source destination (done ++ [a :: rel ++ source]) n v)
      (SyncFails P t source destination) u := by
  have hsource := h.source_eq hapart (a :: rel)
  rw [syncEntry, wp_bind, wp_get, relative_append, hsource]
  rcases hnode : t.node (a :: rel ++ source) with _ | _ | f
  · rw [hnode] at hentry
    cases hentry
  · simp only [wp_bind, wp_createDirectories, wp_pure]
    constructor
    · intro v hv
      apply (h.makeDirs hdest hnode hv).dir_done hnode
      rw [FileTree.node_makeDirs hv, if_pos (List.suffix_refl _)]
    · intro hv
      exact ⟨⟨_, _, rfl, by simp⟩, h.conflict_of_makeDirs hdest hnode hv, done, count, h⟩
  · have hparent : t.node (rel ++ source) = some .dir := t.parent a _ hentry
    simp only [List.cons_append, List.tail_cons, wp_bind, wp_createDirectories]
    constructor
    · intro v hv
      have hsync := h.makeDirs hdest hparent hv
      have hdir : v.node (rel ++ destination) = some .dir := by
        rw [FileTree.node_makeDirs hv, if_pos (List.suffix_refl _)]
      have hsrc : v.node (a :: rel ++ source) = some (.file f) := by
        rw [hsync.source_eq hapart (a :: rel), hnode]
      have hdst := hsync.untouched (a :: rel) f hnode (.inl hnew)
      exact (wp_bind _ _).1 (hsync.wp_update hnode hsrc hdst hdir)
    · intro hv
      exact ⟨⟨_, _, rfl, by simp⟩, h.conflict_of_makeDirs hdest hparent hv, done, count, h⟩

theorem wp_syncDirectory (hapart : Apart source destination)
    (hsource : t.node source = some .dir) (hdest : t.node destination = some .dir) :
    wp (syncDirectory P source destination)
      (fun n u => Synced P t source destination (P.walk t source) n u)
      (SyncFails P t source destination) t := by
  have hmade := FileTree.makeDirs_of_dir hdest
  simp only [syncDirectory, wp_bind, wp_get, wp_require, wp_createDirectories, hmade]
  refine ⟨fun _ => ⟨?_, fun h => by cases h⟩, fun h => absurd hsource h⟩
  rintro u ⟨⟩
  apply wp_foldlM (fun done n u => Synced P t source destination done n u)
  · exact synced_nil
  · intro done entry rest n v hwalk hv
    have hnodup := P.walk_nodup t source
    have hmem : entry ∈ P.walk t source := by simp [hwalk]
    obtain ⟨⟨a, rel, rfl⟩, hentry⟩ := (P.mem_walk t source entry).1 hmem
    apply wp_syncEntry hapart hdest hv a hentry
    rw [hwalk, List.nodup_append] at hnodup
    intro hdone
    exact hnodup.2.2 _ hdone _ (List.mem_cons_self) rfl

theorem Synced.node_of_dir (h : Synced P t source destination (P.walk t source) count u)
    (hdest : t.node destination = some .dir)
    (hrel : t.node (rel ++ source) = some .dir) : u.node (rel ++ destination) = some .dir := by
  cases rel with
  | nil => exact h.keeps_dir destination hdest
  | cons a rel =>
    have hmem : a :: rel ++ source ∈ P.walk t source := by
      rw [P.mem_walk, hrel]
      exact ⟨⟨a, rel, rfl⟩, rfl⟩
    exact (h.dir (a :: rel) hrel).resolve_right fun hu => hu.2 hmem

theorem mem_walk_of_file (P : Platform) (hsource : t.node source = some .dir) {f : File}
    (hrel : t.node (rel ++ source) = some (.file f)) : rel ++ source ∈ P.walk t source := by
  cases rel with
  | nil =>
    rw [List.nil_append, hsource] at hrel
    cases hrel
  | cons a rel =>
    rw [P.mem_walk, hrel]
    exact ⟨⟨a, rel, rfl⟩, rfl⟩

theorem Synced.not_conflict (h : Synced P t source destination (P.walk t source) count u)
    (hsource : t.node source = some .dir)
    (hdest : t.node destination = some .dir) : ¬Conflict t source destination := by
  rintro ⟨rel, f, ⟨hrel, hfile⟩ | ⟨hrel, hdir⟩⟩
  · obtain ⟨g, hg⟩ := h.keeps_file _ f hfile
    rw [h.node_of_dir hdest hrel] at hg
    cases hg
  · exact h.free rel f hrel (mem_walk_of_file P hsource hrel) hdir

end Sync

section Prune

variable {P : Platform} {t : Disk} {source destination : Location}

/-- The entry exists, but not in the source. -/
def Stale (t : Disk) (source destination : Location) (entry : Location) : Prop :=
  (∃ a rel, entry = a :: rel ++ destination ∧ t.node (a :: rel ++ source) = none) ∧
    (t.node entry).isSome

theorem nativeSize_lt (a : Name) (p : Location) : nativeSize p < nativeSize (a :: p) := by
  rw [nativeSize, nativeSize, List.foldr_cons]
  omega

theorem Stale.child {p : Location} (h : Stale t source destination p) {b : Name}
    (hb : (t.node (b :: p)).isSome) : Stale t source destination (b :: p) := by
  obtain ⟨⟨a, rel, rfl, hnone⟩, _⟩ := h
  refine ⟨⟨b, a :: rel, rfl, ?_⟩, hb⟩
  exact t.none_of_append [b] hnone

/-- What is left of the disk `t` when the entries of `done` are removed. -/
structure Pruned (t : Disk) (done : List Location) (count : Nat) (u : Disk) : Prop where
  node_eq : ∀ q, u.node q = if q ∈ done then none else t.node q
  count_eq : count = done.length

theorem wp_pruneEntry {done rest : List Location} {count : Nat} {p : Location} {u : Disk}
    {E : Error → Disk → Prop} (hstale : ∀ q, q ∈ done ++ p :: rest ↔ Stale t source destination q)
    (hnodup : (done ++ p :: rest).Nodup)
    (hsorted : (done ++ p :: rest).Pairwise fun a b => nativeSize b ≤ nativeSize a)
    (hu : Pruned t done count u) :
    wp (pruneEntry count p) (fun n v => Pruned t (done ++ [p]) n v) E u := by
  have hp : Stale t source destination p := (hstale p).1 (by simp)
  have hnew : p ∉ done := by
    intro hdone
    exact (List.nodup_append.1 hnodup).2.2 p hdone p List.mem_cons_self rfl
  have hleaf : ∀ b, u.node (b :: p) = none := by
    intro b
    rw [hu.node_eq]
    split
    · rfl
    · rename_i hb
      rw [← Option.not_isSome_iff_eq_none]
      intro hsome
      have hmem := (hstale (b :: p)).2 (hp.child hsome)
      -- a child is longer, so it comes before its parent
      rw [List.pairwise_append, List.pairwise_cons] at hsorted
      have hlt := nativeSize_lt b p
      rcases List.mem_append.1 hmem with hd | hr
      · exact hb hd
      · rcases List.mem_cons.1 hr with heq | hr
        · exact List.cons_ne_self b p heq
        · exact absurd (hsorted.2.1.1 _ hr) (by omega)
  have hsome : (u.node p).isSome := by
    rw [hu.node_eq, if_neg hnew]
    exact hp.2
  have hne : p ≠ [] := by
    obtain ⟨⟨a, rel, rfl, _⟩, _⟩ := hp
    exact List.cons_ne_nil a _
  obtain ⟨v, hv⟩ := FileTree.exists_removeLeaf hne hsome hleaf
  rw [pruneEntry, wp_bind, wp_remove]
  constructor
  · intro w hw
    constructor
    case count_eq => simp [hu.count_eq]
    case node_eq =>
      intro q
      rw [FileTree.node_removeLeaf hw, hu.node_eq]
      by_cases hq : q = p <;> simp [hq]
  · intro hnone
    rw [hv] at hnone
    cases hnone

theorem mem_pruneList (q : Location) :
    q ∈ P.sort ((P.walk t destination).filter fun entry =>
      (t.node (relative entry destination ++ source)).isNone) ↔ Stale t source destination q := by
  rw [(P.sort_perm _).mem_iff, List.mem_filter, P.mem_walk, Option.isNone_iff_eq_none]
  constructor
  · rintro ⟨⟨⟨a, rel, rfl⟩, hsome⟩, hnone⟩
    rw [relative_append] at hnone
    exact ⟨⟨a, rel, rfl, hnone⟩, hsome⟩
  · rintro ⟨⟨a, rel, rfl, hnone⟩, hsome⟩
    refine ⟨⟨⟨a, rel, rfl⟩, hsome⟩, ?_⟩
    rw [relative_append, hnone]

theorem wp_pruneDirectory {E : Error → Disk → Prop} (hdest : t.node destination = some .dir) :
    wp (pruneDirectory P source destination)
      (fun n u => ∃ list : List Location, list.Nodup ∧
        (∀ q, q ∈ list ↔ Stale t source destination q) ∧ Pruned t list n u) E t := by
  simp only [pruneDirectory, getPruneList, wp_bind, wp_get, wp_require, wp_pure, hdest,
    Option.isSome_some, not_true_eq_false, false_implies, and_true, true_implies]
  have hstale : ∀ q, _ ↔ Stale t source destination q := mem_pruneList (P := P)
  have hnodup : (P.sort ((P.walk t destination).filter fun entry =>
      (t.node (relative entry destination ++ source)).isNone)).Nodup :=
    (P.sort_perm _).nodup_iff.2 ((P.walk_nodup t destination).filter _)
  have hsorted := P.sort_pairwise ((P.walk t destination).filter fun entry =>
      (t.node (relative entry destination ++ source)).isNone)
  generalize P.sort _ = list at hstale hnodup hsorted ⊢
  refine (wp_foldlM (fun done n u => Pruned t done n u) list 0 t ⟨by simp, rfl⟩ ?_).mono
    (fun n u hu => ⟨list, hnodup, hstale, hu⟩) (fun _ _ h => h)
  rintro done p rest n v rfl hv
  exact wp_pruneEntry hstale hnodup hsorted hv

theorem not_stale_of_outside {q : Location} (hq : ¬destination <:+ q) :
    ¬Stale t source destination q := by
  rintro ⟨⟨a, rel, rfl, _⟩, _⟩
  exact hq (List.suffix_append _ _)

theorem not_stale_of_source {rel : Location} (hrel : t.node (rel ++ source) ≠ none) :
    ¬Stale t source destination (rel ++ destination) := by
  rintro ⟨⟨a, r, heq, hnone⟩, _⟩
  rw [← List.append_cancel_right heq] at hnone
  exact hrel hnone

section Removed

variable {u : Disk} {list : List Location} {m : Nat} (hu : Pruned t list m u)
  (hlist : ∀ q, q ∈ list ↔ Stale t source destination q)

include hu hlist

theorem Pruned.node_of_not_stale {q : Location} (hq : ¬Stale t source destination q) :
    u.node q = t.node q := by
  rw [hu.node_eq, if_neg]
  rw [hlist]
  exact hq

theorem Pruned.node_of_source (rel : Location) (hrel : t.node (rel ++ source) ≠ none) :
    u.node (rel ++ destination) = t.node (rel ++ destination) :=
  hu.node_of_not_stale hlist (not_stale_of_source hrel)

theorem Pruned.node_of_absent (hsource : t.node source ≠ none) {rel : Location}
    (hrel : t.node (rel ++ source) = none) : u.node (rel ++ destination) = none := by
  cases rel with
  | nil => exact absurd hrel hsource
  | cons a rel =>
    rw [hu.node_eq]
    split
    · rfl
    · rename_i hmem
      rw [hlist] at hmem
      rw [← Option.not_isSome_iff_eq_none]
      intro hsome
      exact hmem ⟨⟨a, rel, rfl, hrel⟩, hsome⟩

end Removed

end Prune

section Mirror

variable {P : Platform} {t u : Disk} {source destination : Location}

theorem syncDirectory_ok (P : Platform) (hapart : Apart source destination)
    (hsource : t.node source = some .dir) (hdest : t.node destination = some .dir)
    (hkinds : ¬Conflict t source destination) :
    ∃ n u, syncDirectory P source destination t = .ok n u ∧
      Synced P t source destination (P.walk t source) n u := by
  apply ((wp_syncDirectory hapart hsource hdest).mono (fun _ _ h => h) _).exists_ok
  · exact fun _ _ h => h
  · intro e u h
    exact hkinds h.2.1

theorem pruneDirectory_ok (P : Platform) (source : Location)
    (hdest : t.node destination = some .dir) :
    ∃ n u, pruneDirectory P source destination t = .ok n u ∧ ∃ list : List Location, list.Nodup ∧
      (∀ q, q ∈ list ↔ Stale t source destination q) ∧ Pruned t list n u :=
  (wp_pruneDirectory (E := fun _ _ => False) hdest).exists_ok fun _ _ h => h

/-- The disk `u` is the disk `t` with the destination made a mirror of the source. -/
structure Mirrored (P : Platform) (t : Disk) (source destination : Location) (u : Disk) : Prop where
  frame : ∀ q, ¬destination <:+ q → u.node q = t.node q
  absent : ∀ rel, t.node (rel ++ source) = none → u.node (rel ++ destination) = none
  dir : ∀ rel, t.node (rel ++ source) = some .dir → u.node (rel ++ destination) = some .dir
  copied : ∀ rel f, t.node (rel ++ source) = some (.file f) →
    Outdated f (t.node (rel ++ destination)) →
      ∃ n, u.node (rel ++ destination) = some (.file ⟨f.bytes, P.clock n⟩)
  kept : ∀ rel f, t.node (rel ++ source) = some (.file f) →
    ¬Outdated f (t.node (rel ++ destination)) →
      u.node (rel ++ destination) = t.node (rel ++ destination)

theorem Pruned.mirrored {n m : Nat} {v : Disk} {list : List Location}
    (hapart : Apart source destination)
    (hsource : t.node source = some .dir) (hdest : t.node destination = some .dir)
    (hu : Synced P t source destination (P.walk t source) n u)
    (hlist : ∀ q, q ∈ list ↔ Stale u source destination q) (hv : Pruned u list m v) :
    Mirrored P t source destination v := by
  have hkept : ∀ rel, t.node (rel ++ source) ≠ none →
      v.node (rel ++ destination) = u.node (rel ++ destination) := by
    intro rel hrel
    apply hv.node_of_source hlist
    rw [hu.source_eq hapart]
    exact hrel
  constructor
  case frame =>
    intro q hq
    rw [hv.node_of_not_stale hlist (not_stale_of_outside hq), hu.frame q hq]
  case absent =>
    intro rel hrel
    apply hv.node_of_absent hlist
    · rw [hu.frame source hapart.source_outside, hsource]
      exact Option.some_ne_none _
    · rw [hu.source_eq hapart, hrel]
  case dir =>
    intro rel hrel
    rw [hkept rel (by simp [hrel]), hu.node_of_dir hdest hrel]
  case copied =>
    intro rel f hrel hout
    rw [hkept rel (by simp [hrel])]
    exact hu.copied rel f hrel (mem_walk_of_file P hsource hrel) hout
  case kept =>
    intro rel f hrel hout
    rw [hkept rel (by simp [hrel]), hu.untouched rel f hrel (.inr hout)]

theorem mirrorDirectory_ok (hapart : Apart source destination)
    (hsource : t.node source = some .dir) (hdest : t.node destination = some .dir)
    (hkinds : ¬Conflict t source destination) :
    ∃ n u, mirrorDirectory P source destination t = .ok n u ∧
      Mirrored P t source destination u := by
  obtain ⟨n, u, hsync, hu⟩ := syncDirectory_ok P hapart hsource hdest hkinds
  obtain ⟨m, v, hprune, list, _, hlist, hv⟩ :=
    pruneDirectory_ok P source (hu.keeps_dir _ hdest)
  refine ⟨n + m, v, ?_, hv.mirrored hapart hsource hdest hu hlist⟩
  rw [mirrorDirectory, bind_ok hsync, bind_ok hprune]
  rfl

/-- There is nothing to copy and nothing to remove. -/
structure UpToDate (t : Disk) (source destination : Location) : Prop where
  absent : ∀ rel, t.node (rel ++ source) = none → t.node (rel ++ destination) = none
  dir : ∀ rel, t.node (rel ++ source) = some .dir → t.node (rel ++ destination) = some .dir
  file : ∀ rel f, t.node (rel ++ source) = some (.file f) →
    ∃ g, t.node (rel ++ destination) = some (.file g) ∧ ¬Outdated f (some (.file g))

theorem UpToDate.not_conflict (h : UpToDate t source destination) :
    ¬Conflict t source destination := by
  rintro ⟨rel, f, ⟨hrel, hfile⟩ | ⟨hrel, hdir⟩⟩
  · rw [h.dir rel hrel] at hfile
    cases hfile
  · obtain ⟨g, hg, _⟩ := h.file rel f hrel
    rw [hg] at hdir
    cases hdir

theorem UpToDate.not_pending (h : UpToDate t source destination) (rel : Location) :
    pending t source destination (rel ++ source) = false := by
  rcases hrel : t.node (rel ++ source) with _ | _ | f
  · simp [pending, hrel]
  · simp [pending, hrel]
  · obtain ⟨g, hg, hout⟩ := h.file rel f hrel
    rw [pending_append hrel, hg]
    simpa using hout

theorem Synced.node_of_upToDate {n : Nat} (hu : Synced P t source destination (P.walk t source) n u)
    (h : UpToDate t source destination) (hdest : t.node destination = some .dir) :
    u.node = t.node := by
  funext q
  by_cases hq : destination <:+ q
  · obtain ⟨rel, rfl⟩ := hq
    rcases hrel : t.node (rel ++ source) with _ | _ | f
    · exact hu.foreign rel hrel
    · rw [hu.node_of_dir hdest hrel, h.dir rel hrel]
    · obtain ⟨g, hg, hout⟩ := h.file rel f hrel
      apply hu.untouched rel f hrel
      rw [hg]
      exact .inr hout
  · exact hu.frame q hq

theorem UpToDate.not_stale (h : UpToDate t source destination) (q : Location) :
    ¬Stale t source destination q := by
  rintro ⟨⟨a, rel, rfl, hnone⟩, hsome⟩
  rw [h.absent (a :: rel) hnone] at hsome
  cases hsome

theorem UpToDate.mirrorDirectory (h : UpToDate t source destination)
    (hapart : Apart source destination) (hsource : t.node source = some .dir)
    (hdest : t.node destination = some .dir) :
    ∃ u, mirrorDirectory P source destination t = .ok 0 u ∧ u.node = t.node := by
  obtain ⟨n, u, hsync, hu⟩ := syncDirectory_ok P hapart hsource hdest h.not_conflict
  have hnode := hu.node_of_upToDate h hdest
  have hn : n = 0 := by
    rw [hu.count_eq, List.length_eq_zero_iff, List.filter_eq_nil_iff]
    intro entry hentry
    obtain ⟨⟨a, rel, rfl⟩, _⟩ := (P.mem_walk t source entry).1 hentry
    rw [h.not_pending (a :: rel)]
    exact Bool.false_ne_true
  obtain ⟨m, v, hprune, list, _, hlist, hv⟩ :=
    pruneDirectory_ok P source (hu.keeps_dir _ hdest)
  have hempty : list = [] := by
    apply List.eq_nil_iff_forall_not_mem.2
    intro q hq
    apply h.not_stale q
    rw [hlist, Stale, hnode] at hq
    exact hq
  subst hempty
  refine ⟨v, ?_, ?_⟩
  · rw [Files.mirrorDirectory, bind_ok hsync, bind_ok hprune, hn, hv.count_eq]
    rfl
  · funext q
    rw [hv.node_eq, if_neg List.not_mem_nil, hnode]

/-- Without conflicts, what is newer than a file of the source is a file, too. -/
theorem exists_file_of_not_outdated {rel : Location} {f : File}
    (hkinds : ¬Conflict t source destination) (hrel : t.node (rel ++ source) = some (.file f))
    (hout : ¬Outdated f (t.node (rel ++ destination))) :
    ∃ g, t.node (rel ++ destination) = some (.file g) := by
  rcases hnode : t.node (rel ++ destination) with _ | _ | g
  · rw [hnode] at hout
    exact absurd trivial hout
  · exact absurd ⟨rel, f, .inr ⟨hrel, hnode⟩⟩ hkinds
  · exact ⟨g, rfl⟩

theorem Mirrored.upToDate (h : Mirrored P t source destination u)
    (hapart : Apart source destination) (hkinds : ¬Conflict t source destination)
    (hclock : ∀ rel f, t.node (rel ++ source) = some (.file f) → ∀ n, f.mtime ≤ P.clock n) :
    UpToDate u source destination := by
  have hsource : ∀ rel, u.node (rel ++ source) = t.node (rel ++ source) :=
    fun rel => h.frame _ (hapart.append rel)
  constructor
  case absent =>
    intro rel hrel
    rw [hsource] at hrel
    exact h.absent rel hrel
  case dir =>
    intro rel hrel
    rw [hsource] at hrel
    exact h.dir rel hrel
  case file =>
    intro rel f hrel
    rw [hsource] at hrel
    by_cases hout : Outdated f (t.node (rel ++ destination))
    · obtain ⟨n, hn⟩ := h.copied rel f hrel hout
      refine ⟨_, hn, ?_⟩
      have hle := hclock rel f hrel n
      simp only [Outdated]
      omega
    · obtain ⟨g, hg⟩ := exists_file_of_not_outdated hkinds hrel hout
      rw [h.kept rel f hrel hout, hg]
      exact ⟨g, rfl, hg ▸ hout⟩

theorem Mirrored.same_kinds (h : Mirrored P t source destination u)
    (hkinds : ¬Conflict t source destination) (rel : Location) :
    (u.node (rel ++ destination)).map Node.isDir = (t.node (rel ++ source)).map Node.isDir := by
  rcases hrel : t.node (rel ++ source) with _ | _ | f
  · rw [h.absent rel hrel]
  · rw [h.dir rel hrel]
  · by_cases hout : Outdated f (t.node (rel ++ destination))
    · obtain ⟨n, hn⟩ := h.copied rel f hrel hout
      rw [hn]
      rfl
    · obtain ⟨g, hg⟩ := exists_file_of_not_outdated hkinds hrel hout
      rw [h.kept rel f hrel hout, hg]
      rfl

theorem mirrorDirectory_mirrors (P : Platform) (t : Disk) (source destination : Location)
    (hapart : Apart source destination) (hsource : t.node source = some .dir)
    (hdest : t.node destination = some .dir) (hkinds : ¬Conflict t source destination)
    (hclock : ∀ rel f, t.node (rel ++ source) = some (.file f) → ∀ n, f.mtime ≤ P.clock n) :
    ∃ n u, mirrorDirectory P source destination t = .ok n u ∧
      (∀ q, ¬destination <:+ q → u.node q = t.node q) ∧
      (∀ rel, (u.node (rel ++ destination)).map Node.isDir =
        (t.node (rel ++ source)).map Node.isDir) ∧
      (∀ rel f, t.node (rel ++ source) = some (.file f) →
        (Outdated f (t.node (rel ++ destination)) →
          ∃ n, u.node (rel ++ destination) = some (.file ⟨f.bytes, P.clock n⟩)) ∧
        (¬Outdated f (t.node (rel ++ destination)) →
          u.node (rel ++ destination) = t.node (rel ++ destination))) ∧
      ∀ P' : Platform, ∃ v, mirrorDirectory P' source destination u = .ok 0 v ∧
        v.node = u.node := by
  obtain ⟨n, u, hrun, hu⟩ := mirrorDirectory_ok (P := P) hapart hsource hdest hkinds
  refine ⟨n, u, hrun, hu.frame, hu.same_kinds hkinds, ?_, ?_⟩
  · intro rel f hrel
    exact ⟨hu.copied rel f hrel, hu.kept rel f hrel⟩
  · intro P'
    have hsource' : u.node source = some .dir := by
      rw [hu.frame source hapart.source_outside, hsource]
    have hdest' : u.node destination = some .dir := hu.dir [] hsource
    exact (hu.upToDate hapart hkinds hclock).mirrorDirectory hapart hsource' hdest'

def oneDirectory (name : Name) : Disk := FileTree.empty.makeDir name [] rfl

/-- A source with one file, and a destination with a directory that is not empty. -/
def oldAndNew : Disk :=
  let t := oneDirectory ['s']
  let t := t.makeDir ['d'] [] rfl
  let t := t.putFile ['f'] [['s']] ⟨[1, 2], 0⟩ rfl (by decide)
  let t := t.makeDir ['o'] [['d']] rfl
  t.putFile ['x'] [['o'], ['d']] ⟨[3], 0⟩ rfl (by decide)

theorem oldAndNew_not_conflict : ¬Conflict oldAndNew [['s']] [['d']] := by
  have hplaces : ∀ p ∈ oldAndNew.places, [['s']] <:+ p →
      p = [['s']] ∨ (oldAndNew.node (relative p [['s']] ++ [['d']])).isNone := by decide
  have hrel : ∀ rel, (oldAndNew.node (rel ++ [['s']])).isSome →
      rel = [] ∨ oldAndNew.node (rel ++ [['d']]) = none := by
    intro rel hsome
    have hmem := hplaces _ ((oldAndNew.mem_places _).2 hsome) (List.suffix_append _ _)
    rw [relative_append, Option.isNone_iff_eq_none] at hmem
    exact hmem.imp_left List.append_left_eq_self.1
  rintro ⟨rel, f, hboth⟩
  have hsome : (oldAndNew.node (rel ++ [['s']])).isSome := by
    rcases hboth with ⟨hs, _⟩ | ⟨hs, _⟩ <;> simp [hs]
  rcases hrel rel hsome with rfl | hnone
  · rcases hboth with ⟨_, hd⟩ | ⟨hs, _⟩
    · cases hd
    · cases hs
  · rcases hboth with ⟨_, hd⟩ | ⟨_, hd⟩ <;> simp [hnone] at hd

theorem oldAndNew_mtime {q : Location} {f : File} (h : oldAndNew.node q = some (.file f)) :
    f.mtime = 0 := by
  simp only [oldAndNew, oneDirectory, FileTree.putFile, FileTree.makeDir, FileTree.empty,
    Function.update_apply] at h
  split_ifs at h
  all_goals
    cases h
  all_goals rfl

theorem mirrorDirectory_mirrors_oldAndNew :
    ∃ n u, mirrorDirectory (.ofClock fun n => n) [['s']] [['d']] oldAndNew = .ok n u ∧
      ∀ rel, (u.node (rel ++ [['d']])).map Node.isDir =
        (oldAndNew.node (rel ++ [['s']])).map Node.isDir := by
  obtain ⟨n, u, hrun, _, hkinds, _⟩ := mirrorDirectory_mirrors (.ofClock fun n => n) oldAndNew
    [['s']] [['d']] ⟨by decide, by decide⟩ (by decide) (by decide) oldAndNew_not_conflict
    (by
      intro rel f hfile n
      rw [oldAndNew_mtime hfile]
      exact Int.natCast_nonneg n)
  exact ⟨n, u, hrun, hkinds⟩

end Mirror

end Utlib.Files
