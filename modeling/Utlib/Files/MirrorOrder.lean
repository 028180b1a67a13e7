import Utlib.Files.Mirror

/-! C++ leaves open which operand of `+` in `mirrorDirectory` is evaluated first. -/

namespace Utlib.Files

open Program

/-- The names, the kinds and the bytes below a directory. -/
def contents (t : Disk) (base rel : Location) : Option (Node (List UInt8)) :=
  (t.node (rel ++ base)).map (Node.map File.bytes)

section Order

variable {P : Platform} {t u v : Disk} {source destination : Location}

/-- Both orders have the same value or exception and leave the same destination, and without a
source both throw and leave the destination alone. -/
structure OrderIndependent (P : Platform) (t : Disk) (source destination : Location) : Prop where
  answer_eq : answer (mirrorDirectory P source destination t) =
    answer (mirrorDirectoryRightToLeft P source destination t)
  contents_eq : contents (final (mirrorDirectory P source destination t)) destination =
    contents (final (mirrorDirectoryRightToLeft P source destination t)) destination
  missing : t.node source = none →
    ∀ run ∈ [mirrorDirectory P source destination t,
        mirrorDirectoryRightToLeft P source destination t],
      (∃ e, answer run = .error e) ∧
        ∀ rel, (final run).node (rel ++ destination) = t.node (rel ++ destination)

theorem syncDirectory_of_not_dir (P : Platform) (destination : Location)
    (hsource : t.node source ≠ some .dir) :
    syncDirectory P source destination t = .error (.dirNotFound source) t := by
  have hwp : wp (syncDirectory P source destination) (fun _ _ => False)
      (fun e u => e = .dirNotFound source ∧ u = t) t := by
    simp [syncDirectory, hsource]
  obtain ⟨e, u, hrun, rfl, rfl⟩ := hwp.exists_error fun _ _ h => h
  exact hrun

theorem pruneDirectory_of_missing (P : Platform) (source : Location)
    (hdest : t.node destination = none) :
    pruneDirectory P source destination t = .error (.dirNotFound destination) t := by
  have hwp : wp (pruneDirectory P source destination) (fun _ _ => False)
      (fun e u => e = .dirNotFound destination ∧ u = t) t := by
    simp [pruneDirectory, hdest]
  obtain ⟨e, u, hrun, rfl, rfl⟩ := hwp.exists_error fun _ _ h => h
  exact hrun

theorem pruneDirectory_of_file (P : Platform) (source : Location) {f : File}
    (hdest : t.node destination = some (.file f)) :
    pruneDirectory P source destination t =
      .error (.filesystemError .recursiveDirectoryIterator destination) t := by
  have hwp : wp (pruneDirectory P source destination) (fun _ _ => False)
      (fun e u => e = .filesystemError .recursiveDirectoryIterator destination ∧ u = t) t := by
    simp [pruneDirectory, getPruneList, hdest]
  obtain ⟨e, u, hrun, rfl, rfl⟩ := hwp.exists_error fun _ _ h => h
  exact hrun

theorem pruneDirectory_of_not_stale (P : Platform) (hdest : t.node destination = some .dir)
    (hstale : ∀ q, ¬Stale t source destination q) :
    pruneDirectory P source destination t = .ok 0 t := by
  have hempty : P.sort ((P.walk t destination).filter fun entry =>
      (t.node (relative entry destination ++ source)).isNone) = [] := by
    apply List.eq_nil_iff_forall_not_mem.2
    intro q hq
    exact hstale q ((mem_pruneList q).1 hq)
  have hwp : wp (pruneDirectory P source destination) (fun n u => n = 0 ∧ u = t)
      (fun _ _ => False) t := by
    simp [pruneDirectory, getPruneList, hdest, hempty]
  obtain ⟨n, u, hrun, rfl, rfl⟩ := hwp.exists_ok fun _ _ h => h
  exact hrun

/-- Nothing that is missing in the source appears below the destination. -/
theorem syncDirectory_foreign (P : Platform)
    (hapart : t.node source = some .dir → Apart source destination)
    (hdest : t.node destination = some .dir) {rel : Location}
    (hrel : t.node (rel ++ source) = none) :
    (final (syncDirectory P source destination t)).node (rel ++ destination) =
      t.node (rel ++ destination) := by
  by_cases hsource : t.node source = some .dir
  · apply wp.final (R := fun u : Disk => u.node _ = _)
    apply (wp_syncDirectory (hapart hsource) hsource hdest).mono
    · intro n u hu
      exact hu.foreign rel hrel
    · rintro e u ⟨_, _, done, n, hu⟩
      exact hu.foreign rel hrel
  · rw [syncDirectory_of_not_dir P destination hsource]
    rfl

theorem final_mirrorDirectoryRightToLeft {m : Nat}
    (hprune : pruneDirectory P source destination t = .ok m u) :
    final (mirrorDirectoryRightToLeft P source destination t) =
      final (syncDirectory P source destination u) := by
  rw [mirrorDirectoryRightToLeft, bind_ok hprune]
  cases hsync : syncDirectory P source destination u with
  | ok n v =>
    rw [bind_ok hsync]
    rfl
  | error e v =>
    rw [bind_error _ hsync]

/-- The first half throws unless the mirror can be made. -/
theorem syncDirectory_throws (P : Platform)
    (hapart : t.node source = some .dir → Apart source destination)
    (hdest : t.node destination = some .dir)
    (hbad : ¬(t.node source = some .dir ∧ ¬Conflict t source destination)) :
    ∃ e u, syncDirectory P source destination t = .error e u := by
  by_cases hsource : t.node source = some .dir
  · have hwp := wp_syncDirectory (P := P) (hapart hsource) hsource hdest
    obtain ⟨e, u, hrun, _⟩ := hwp.exists_error fun n u hu =>
      hbad ⟨hsource, hu.not_conflict hsource hdest⟩
    exact ⟨e, u, hrun⟩
  · exact ⟨_, _, syncDirectory_of_not_dir P destination hsource⟩

theorem OrderIndependent.can_mirror (h : OrderIndependent P t source destination)
    (hapart : t.node source = some .dir → Apart source destination)
    (hdest : t.node destination = some .dir) {q : Location}
    (hstale : Stale t source destination q) :
    t.node source = some .dir ∧ ¬Conflict t source destination := by
  by_contra hbad
  obtain ⟨e, u, hsync⟩ := syncDirectory_throws P hapart hdest hbad
  obtain ⟨m, v, hprune, list, _, hlist, hv⟩ := pruneDirectory_ok P source hdest
  have hmem := (hlist q).2 hstale
  obtain ⟨⟨a, rel, rfl, hnone⟩, hsome⟩ := hstale
  have hleft : final (mirrorDirectory P source destination t) =
      final (syncDirectory P source destination t) := by
    rw [mirrorDirectory, bind_error _ hsync, hsync]
  have hcontents := congrFun h.contents_eq (a :: rel)
  have hgone : v.node (a :: rel ++ destination) = none := by
    rw [hv.node_eq, if_pos hmem]
  have hnone' : v.node (a :: rel ++ source) = none := by
    rw [hv.node_eq, hnone, ite_self]
  have hdest' : v.node destination = some .dir := by
    rw [hv.node_eq, if_neg, hdest]
    rw [hlist]
    rintro ⟨⟨b, r, heq, _⟩, _⟩
    have hlen := congrArg List.length heq
    simp at hlen
    omega
  have hapart' : v.node source = some .dir → Apart source destination := by
    intro hsource
    rw [hv.node_eq] at hsource
    split at hsource
    · cases hsource
    · exact hapart hsource
  rw [contents, contents, hleft, syncDirectory_foreign P hapart hdest hnone,
    final_mirrorDirectoryRightToLeft hprune, syncDirectory_foreign P hapart' hdest' hnone',
    hgone] at hcontents
  rw [Option.isSome_iff_exists] at hsome
  obtain ⟨node, hnode⟩ := hsome
  rw [hnode] at hcontents
  cases hcontents

theorem syncDirectory_of_makeDirs (P : Platform) (hsource : t.node source = some .dir)
    (hsource' : u.node source = some .dir) (hmade : t.makeDirs destination = some u) :
    syncDirectory P source destination t = syncDirectory P source destination u := by
  have hagain : u.makeDirs destination = some u := by
    apply FileTree.makeDirs_of_dir
    rw [FileTree.node_makeDirs hmade, if_pos (List.suffix_refl _)]
  have hrun : ∀ v : Disk, v.node source = some .dir → v.makeDirs destination = some u →
      syncDirectory P source destination v =
        (P.walk u source).foldlM (syncEntry P source destination) 0 u := by
    intro v hv hvu
    have hcreate : createDirectories destination v = .ok () u := by
      simp [createDirectories, hvu]
    rw [syncDirectory, get_bind, require_bind hv, bind_ok hcreate, get_bind]
  rw [hrun t hsource hmade, hrun u hsource' hagain]

/-- What the first half throws is never what the second half would throw first. -/
theorem wp_mirrorDirectory_error (P : Platform) (hne : source ≠ destination)
    (hapart : t.node source = some .dir → Apart source destination) :
    wp (mirrorDirectory P source destination) (fun _ _ => True)
      (fun e _ => e ≠ .dirNotFound destination ∧
        ∀ q, e ≠ .filesystemError .recursiveDirectoryIterator q) t := by
  rw [mirrorDirectory, wp_bind]
  by_cases hsource : t.node source = some .dir
  · cases hmade : t.makeDirs destination with
    | none =>
      have hcreate : createDirectories destination t =
          .error (.filesystemError .createDirectories destination) t := by
        simp [createDirectories, hmade]
      have hrun : syncDirectory P source destination t =
          .error (.filesystemError .createDirectories destination) t := by
        rw [syncDirectory, get_bind, require_bind hsource, bind_error _ hcreate]
      rw [wp_of_error hrun]
      simp
    | some u =>
      have hdest : u.node destination = some .dir := by
        rw [FileTree.node_makeDirs hmade, if_pos (List.suffix_refl _)]
      have hsource' : u.node source = some .dir := by
        rw [FileTree.node_makeDirs hmade, if_neg (hapart hsource).destination_outside, hsource]
      rw [wp_congr (syncDirectory_of_makeDirs P hsource hsource' hmade)]
      apply (wp_syncDirectory (hapart hsource) hsource' hdest).mono
      · intro n v hv
        rw [wp_bind]
        exact (wp_pruneDirectory (hv.keeps_dir _ hdest)).mono (fun _ _ _ => trivial)
          (fun _ _ h => h)
      · rintro e v ⟨⟨op, q, rfl, hop⟩, _⟩
        simpa using hop
  · rw [wp_of_error (syncDirectory_of_not_dir P destination hsource)]
    simpa using hne

theorem OrderIndependent.dest_dir (h : OrderIndependent P t source destination)
    (hne : source ≠ destination)
    (hapart : t.node source = some .dir → Apart source destination) :
    t.node destination = some .dir := by
  have hleft := wp_mirrorDirectory_error (t := t) P hne hapart
  have hanswer := h.answer_eq
  unfold wp at hleft
  rcases hdest : t.node destination with _ | _ | f
  · rw [mirrorDirectoryRightToLeft, bind_error _ (pruneDirectory_of_missing P source hdest)]
      at hanswer
    cases hrun : mirrorDirectory P source destination t with
    | ok n u =>
      rw [hrun] at hanswer
      cases hanswer
    | error e u =>
      rw [hrun] at hanswer hleft
      cases hanswer
      exact absurd rfl hleft.1
  · rfl
  · have hprune := pruneDirectory_of_file P source hdest
    rw [mirrorDirectoryRightToLeft, bind_error _ hprune] at hanswer
    cases hrun : mirrorDirectory P source destination t with
    | ok n u =>
      rw [hrun] at hanswer
      cases hanswer
    | error e u =>
      rw [hrun] at hanswer hleft
      cases hanswer
      exact absurd rfl (hleft.2 destination)

theorem Synced.stale_iff {done : List Location} {n : Nat}
    (h : Synced P t source destination done n u) (hapart : Apart source destination)
    (q : Location) : Stale u source destination q ↔ Stale t source destination q := by
  constructor
  · rintro ⟨⟨a, rel, rfl, hnone⟩, hsome⟩
    rw [h.source_eq hapart (a :: rel)] at hnone
    rw [h.foreign (a :: rel) hnone] at hsome
    exact ⟨⟨a, rel, rfl, hnone⟩, hsome⟩
  · rintro ⟨⟨a, rel, rfl, hnone⟩, hsome⟩
    refine ⟨⟨a, rel, rfl, ?_⟩, ?_⟩
    · rw [h.source_eq hapart (a :: rel), hnone]
    · rw [h.foreign (a :: rel) hnone]
      exact hsome

theorem mirrorDirectory_comm_of_not_stale (P : Platform)
    (hapart : t.node source = some .dir → Apart source destination)
    (hdest : t.node destination = some .dir) (hstale : ∀ q, ¬Stale t source destination q) :
    mirrorDirectory P source destination t = mirrorDirectoryRightToLeft P source destination t := by
  rw [mirrorDirectoryRightToLeft, bind_ok (pruneDirectory_of_not_stale P hdest hstale),
    mirrorDirectory]
  cases hsync : syncDirectory P source destination t with
  | error e u => rw [bind_error _ hsync, bind_error _ hsync]
  | ok n u =>
    have hsource : t.node source = some .dir := by
      by_contra hsource
      rw [syncDirectory_of_not_dir P destination hsource] at hsync
      cases hsync
    have hu := (wp_syncDirectory (hapart hsource) hsource hdest).ok hsync
    have hprune : pruneDirectory P source destination u = .ok 0 u := by
      apply pruneDirectory_of_not_stale P (hu.keeps_dir _ hdest)
      intro q hq
      exact hstale q ((hu.stale_iff (hapart hsource) q).1 hq)
    rw [bind_ok hsync, bind_ok hsync, bind_ok hprune]

theorem not_outdated_self (f : File) : ¬Outdated f (some (.file f)) := by
  simp [Outdated]

/-- A file or directory is not copied onto itself. -/
theorem syncEntry_self (P : Platform) (count : Nat) (a : Name) (rel : Location) :
    syncEntry P source source count (a :: rel ++ source) t = .ok count t := by
  rw [syncEntry, relative_append, get_bind]
  rcases hnode : t.node (a :: rel ++ source) with _ | _ | f
  · rfl
  · have hcreate : createDirectories (a :: rel ++ source) t = .ok () t := by
      simp only [createDirectories, FileTree.makeDirs_of_dir hnode]
    exact bind_ok hcreate
  · have hparent : t.node (rel ++ source) = some .dir := t.parent a _ (by
      rw [← List.cons_append, hnode]
      rfl)
    have hcreate : createDirectories (rel ++ source) t = .ok () t := by
      simp only [createDirectories, FileTree.makeDirs_of_dir hparent]
    have hlook : look (fun t => needsUpdate t (a :: rel ++ source) (a :: rel ++ source)) t =
        .ok false t := by
      rw [look, needsUpdate_eq hnode, hnode]
      simp [not_outdated_self]
    exact (bind_ok hcreate).trans (bind_ok hlook)

theorem syncDirectory_self (P : Platform) (hsource : t.node source = some .dir) :
    syncDirectory P source source t = .ok 0 t := by
  have hmade := FileTree.makeDirs_of_dir hsource
  have hwp : wp (syncDirectory P source source) (fun n u => n = 0 ∧ u = t) (fun _ _ => False) t := by
    simp only [syncDirectory, wp_bind, wp_get, wp_require, wp_createDirectories, hmade]
    refine ⟨fun _ => ⟨?_, fun h => by cases h⟩, fun h => absurd hsource h⟩
    rintro u ⟨⟩
    apply wp_foldlM (fun _ n u => n = 0 ∧ u = t) (P.walk t source) 0 t ⟨rfl, rfl⟩
    rintro done entry rest n u hwalk ⟨rfl, rfl⟩
    have hmem : entry ∈ P.walk u source := by simp [hwalk]
    obtain ⟨⟨a, rel, rfl⟩, _⟩ := (P.mem_walk u source entry).1 hmem
    rw [wp_of_ok (syncEntry_self P 0 a rel)]
    exact ⟨rfl, rfl⟩
  obtain ⟨n, u, hrun, rfl, rfl⟩ := hwp.exists_ok fun _ _ h => h
  exact hrun

theorem not_stale_self (q : Location) : ¬Stale t source source q := by
  rintro ⟨⟨a, rel, rfl, hnone⟩, hsome⟩
  rw [hnone] at hsome
  cases hsome

/-- A directory may be mirrored onto itself. -/
theorem mirrorDirectory_comm_self (P : Platform) (hfile : ∀ f, t.node source ≠ some (.file f)) :
    mirrorDirectory P source source t = mirrorDirectoryRightToLeft P source source t := by
  rcases hsource : t.node source with _ | _ | f
  · rw [mirrorDirectory, mirrorDirectoryRightToLeft,
      bind_error _ (syncDirectory_of_not_dir P source (by simp [hsource])),
      bind_error _ (pruneDirectory_of_missing P source hsource)]
  · have hsync := syncDirectory_self P hsource
    have hprune := pruneDirectory_of_not_stale P hsource not_stale_self
    rw [mirrorDirectory, mirrorDirectoryRightToLeft, bind_ok hsync, bind_ok hprune,
      bind_ok hprune, bind_ok hsync]
  · exact absurd hsource (hfile f)

theorem OrderIndependent.of_comm (hcomm : mirrorDirectory P source destination t =
    mirrorDirectoryRightToLeft P source destination t) :
    OrderIndependent P t source destination := by
  constructor
  case answer_eq => rw [hcomm]
  case contents_eq => rw [hcomm]
  case missing =>
    intro hsource run hrun
    have hdir : t.node source ≠ some .dir := by simp [hsource]
    have hsync := syncDirectory_of_not_dir P destination hdir
    rw [← hcomm, mirrorDirectory, bind_error _ hsync] at hrun
    simp only [List.mem_cons, List.not_mem_nil, or_false, or_self] at hrun
    subst hrun
    exact ⟨⟨_, rfl⟩, fun _ => rfl⟩

section RightToLeft

variable {n m : Nat} {list : List Location} (hapart : Apart source destination)
  (hsource : t.node source = some .dir) (hlist : ∀ q, q ∈ list ↔ Stale t source destination q)
  (hu : Pruned t list m u)

include hapart hlist hu

theorem Pruned.source_eq (rel : Location) : u.node (rel ++ source) = t.node (rel ++ source) :=
  hu.node_of_not_stale hlist (not_stale_of_outside (hapart.append rel))

theorem Pruned.pending_eq (rel : Location) :
    pending u source destination (rel ++ source) =
      pending t source destination (rel ++ source) := by
  have hrel := hu.source_eq hapart hlist rel
  rcases hnode : t.node (rel ++ source) with _ | _ | f
  · simp [pending, hrel, hnode]
  · simp [pending, hrel, hnode]
  · rw [pending_append hnode, pending_append (hrel.trans hnode),
      hu.node_of_source hlist rel (by simp [hnode])]

include hsource

theorem Pruned.not_conflict (hkinds : ¬Conflict t source destination) :
    ¬Conflict u source destination := by
  rintro ⟨rel, f, hboth⟩
  rw [hu.source_eq hapart hlist rel, hu.node_of_source hlist rel] at hboth
  · exact hkinds ⟨rel, f, hboth⟩
  · intro hnone
    rw [hu.node_of_absent hlist (by simp [hsource]) hnone] at hboth
    simp at hboth

/-- The other order makes the same mirror. -/
theorem Synced.mirrored_of_pruned (hdest : t.node destination = some .dir)
    (hv : Synced P u source destination (P.walk u source) n v) :
    Mirrored P t source destination v := by
  have hsource' : u.node source = some .dir := by
    rw [hu.node_of_not_stale hlist (not_stale_of_outside hapart.source_outside), hsource]
  have hdest' : u.node destination = some .dir := by
    rw [← hdest]
    exact hu.node_of_source hlist [] (by simp [hsource])
  constructor
  case frame =>
    intro q hq
    rw [hv.frame q hq, hu.node_of_not_stale hlist (not_stale_of_outside hq)]
  case absent =>
    intro rel hrel
    rw [hv.foreign rel ((hu.source_eq hapart hlist rel).trans hrel),
      hu.node_of_absent hlist (by simp [hsource]) hrel]
  case dir =>
    intro rel hrel
    exact hv.node_of_dir hdest' ((hu.source_eq hapart hlist rel).trans hrel)
  case copied =>
    intro rel f hrel hout
    have hrel' := (hu.source_eq hapart hlist rel).trans hrel
    rw [← hu.node_of_source hlist rel (by simp [hrel])] at hout
    exact hv.copied rel f hrel' (mem_walk_of_file P hsource' hrel') hout
  case kept =>
    intro rel f hrel hout
    have hrel' := (hu.source_eq hapart hlist rel).trans hrel
    have hdst := hu.node_of_source hlist rel (by simp [hrel])
    rw [← hdst] at hout
    rw [hv.untouched rel f hrel' (.inr hout), hdst]

end RightToLeft

theorem Mirrored.contents_eq (hu : Mirrored P t source destination u)
    (hv : Mirrored P t source destination v) :
    contents u destination = contents v destination := by
  funext rel
  rcases hrel : t.node (rel ++ source) with _ | _ | f
  · rw [contents, contents, hu.absent rel hrel, hv.absent rel hrel]
  · rw [contents, contents, hu.dir rel hrel, hv.dir rel hrel]
  · by_cases hout : Outdated f (t.node (rel ++ destination))
    · obtain ⟨n, hn⟩ := hu.copied rel f hrel hout
      obtain ⟨m, hm⟩ := hv.copied rel f hrel hout
      rw [contents, contents, hn, hm]
      rfl
    · rw [contents, contents, hu.kept rel f hrel hout, hv.kept rel f hrel hout]

theorem length_eq_of_mem_iff {l₁ l₂ : List Location} (h₁ : l₁.Nodup) (h₂ : l₂.Nodup)
    (h : ∀ q, q ∈ l₁ ↔ q ∈ l₂) : l₁.length = l₂.length :=
  ((List.perm_ext_iff_of_nodup h₁ h₂).2 h).length_eq

/-- Both orders copy the same number of files. -/
theorem pending_count_eq (P : Platform)
    (hsource : ∀ rel, u.node (rel ++ source) = t.node (rel ++ source))
    (hpending : ∀ rel, pending u source destination (rel ++ source) =
      pending t source destination (rel ++ source)) :
    ((P.walk u source).filter (pending u source destination)).length =
      ((P.walk t source).filter (pending t source destination)).length := by
  apply length_eq_of_mem_iff ((P.walk_nodup u source).filter _) ((P.walk_nodup t source).filter _)
  intro q
  simp only [List.mem_filter, P.mem_walk]
  constructor
  · rintro ⟨⟨⟨a, rel, rfl⟩, hsome⟩, hq⟩
    rw [hsource (a :: rel)] at hsome
    rw [hpending (a :: rel)] at hq
    exact ⟨⟨⟨a, rel, rfl⟩, hsome⟩, hq⟩
  · rintro ⟨⟨⟨a, rel, rfl⟩, hsome⟩, hq⟩
    rw [← hsource (a :: rel)] at hsome
    rw [← hpending (a :: rel)] at hq
    exact ⟨⟨⟨a, rel, rfl⟩, hsome⟩, hq⟩

theorem OrderIndependent.of_mirrorable (hapart : Apart source destination)
    (hdest : t.node destination = some .dir) (hsource : t.node source = some .dir)
    (hkinds : ¬Conflict t source destination) : OrderIndependent P t source destination := by
  obtain ⟨n, u, hsync, hu⟩ := syncDirectory_ok P hapart hsource hdest hkinds
  obtain ⟨m, v, hprune, list, hnodup, hlist, hv⟩ :=
    pruneDirectory_ok P source (hu.keeps_dir _ hdest)
  have hleft : mirrorDirectory P source destination t = .ok (n + m) v := by
    rw [mirrorDirectory, bind_ok hsync, bind_ok hprune]
    rfl
  obtain ⟨m', u', hprune', list', hnodup', hlist', hu'⟩ := pruneDirectory_ok P source hdest
  have hsource' := hu'.source_eq hapart hlist' []
  have hdest' := hu'.node_of_source hlist' [] (by simp [hsource])
  obtain ⟨n', v', hsync', hv'⟩ := syncDirectory_ok P hapart (hsource'.trans hsource)
    (hdest'.trans hdest) (hu'.not_conflict hapart hsource hlist' hkinds)
  have hright : mirrorDirectoryRightToLeft P source destination t = .ok (n' + m') v' := by
    rw [mirrorDirectoryRightToLeft, bind_ok hprune', bind_ok hsync']
    rfl
  have hn : n' = n := by
    rw [hv'.count_eq, hu.count_eq]
    exact pending_count_eq P (hu'.source_eq hapart hlist') (hu'.pending_eq hapart hlist')
  have hm : m' = m := by
    rw [hu'.count_eq, hv.count_eq]
    apply length_eq_of_mem_iff hnodup' hnodup
    intro q
    rw [hlist', hlist, hu.stale_iff hapart]
  constructor
  case answer_eq => rw [hleft, hright, hn, hm]; rfl
  case contents_eq =>
    rw [hleft, hright]
    exact (hv.mirrored hapart hsource hdest hu hlist).contents_eq
      (hv'.mirrored_of_pruned hapart hsource hlist' hu' hdest)
  case missing =>
    intro hnone
    rw [hnone] at hsource
    cases hsource

theorem forall_not_stale_iff : (∀ q, ¬Stale t source destination q) ↔
    ∀ a rel, (t.node (a :: rel ++ destination)).isSome → (t.node (a :: rel ++ source)).isSome := by
  constructor
  · intro h a rel hsome
    rw [Option.isSome_iff_ne_none]
    intro hnone
    exact h _ ⟨⟨a, rel, rfl, hnone⟩, hsome⟩
  · rintro h q ⟨⟨a, rel, rfl, hnone⟩, hsome⟩
    have hsource := h a rel hsome
    rw [hnone] at hsource
    cases hsource

theorem orderIndependent_self_iff (P : Platform) (t : Disk) (source : Location) :
    OrderIndependent P t source source ↔ ∀ f, t.node source ≠ some (.file f) := by
  constructor
  · intro h f hfile
    have hanswer := h.answer_eq
    rw [mirrorDirectory, mirrorDirectoryRightToLeft,
      bind_error _ (syncDirectory_of_not_dir P source (by simp [hfile])),
      bind_error _ (pruneDirectory_of_file P source hfile)] at hanswer
    cases hanswer
  · intro hfile
    exact .of_comm (mirrorDirectory_comm_self P hfile)

theorem orderIndependent_iff_of_ne (hne : source ≠ destination)
    (hapart : t.node source = some .dir → Apart source destination) :
    OrderIndependent P t source destination ↔
      t.node destination = some .dir ∧
        ((∀ q, ¬Stale t source destination q) ∨
          t.node source = some .dir ∧ ¬Conflict t source destination) := by
  constructor
  · intro h
    have hdest := h.dest_dir hne hapart
    refine ⟨hdest, or_iff_not_imp_left.2 ?_⟩
    intro hsome
    rw [not_forall_not] at hsome
    obtain ⟨q, hq⟩ := hsome
    exact h.can_mirror hapart hdest hq
  · rintro ⟨hdest, hnone | ⟨hsource, hkinds⟩⟩
    · exact .of_comm (mirrorDirectory_comm_of_not_stale P hapart hdest hnone)
    · exact .of_mirrorable (hapart hsource) hdest hsource hkinds

/-- The standard leaves open what a directory iteration sees of entries that are added meanwhile:
an existing source and the destination are the same or do not contain one another. -/
theorem orderIndependent_iff (P : Platform) (t : Disk) (source destination : Location)
    (hapart : t.node source = some .dir → source ≠ destination → Apart source destination) :
    OrderIndependent P t source destination ↔
      source = destination ∧ t.node source = none ∨
        t.node destination = some .dir ∧
          ((∀ a rel, (t.node (a :: rel ++ destination)).isSome →
              (t.node (a :: rel ++ source)).isSome) ∨
            t.node source = some .dir ∧ ¬Conflict t source destination) := by
  by_cases hne : source = destination
  · subst hne
    rw [orderIndependent_self_iff]
    rcases t.node source with _ | _ | f <;> simp
  · rw [orderIndependent_iff_of_ne hne fun hsource => hapart hsource hne, forall_not_stale_iff]
    simp [hne]

/-- A mistyped source, and a destination with one file. -/
def mistyped : Disk :=
  (oneDirectory ['d']).putFile ['f'] [['d']] ⟨[1], 0⟩ rfl (by decide)

theorem orderIndependent_iff_mistyped :
    OrderIndependent (.ofClock fun n => n) mistyped [['s']] [['d']] ↔
      [['s']] = [['d']] ∧ mistyped.node [['s']] = none ∨
        mistyped.node [['d']] = some .dir ∧
          ((∀ a rel, (mistyped.node (a :: rel ++ [['d']])).isSome →
              (mistyped.node (a :: rel ++ [['s']])).isSome) ∨
            mistyped.node [['s']] = some .dir ∧ ¬Conflict mistyped [['s']] [['d']]) :=
  orderIndependent_iff (.ofClock fun n => n) mistyped [['s']] [['d']]
    fun _ _ => ⟨by decide, by decide⟩

theorem not_orderIndependent_mistyped :
    ¬OrderIndependent (.ofClock fun n => n) mistyped [['s']] [['d']] := by
  intro h
  have hfile := congrArg Option.isSome (congrFun h.contents_eq [['f']])
  revert hfile
  decide

end Order

end Utlib.Files
