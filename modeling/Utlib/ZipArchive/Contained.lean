import Utlib.ZipArchive.Extract

/-! Where `uncompress` and `uncompressAll` write. -/

namespace Utlib.ZipArchive

open Program Utlib.Path

section Extraction

variable {w u : World} {file targetDir : Path} {archive : List Entry} {fileName : List Char}

theorem Along.writeFile_of_dir (h : Along w file.parentPath file.parentPath.parts u)
    (data : List UInt8)
    (hdir : u.disk.node (w.place file.absolute file.parts) = some .dir) :
    u.writeFile file data = none := by
  have hresolve : u.resolve file = none ∨
      u.resolve file = some (w.place file.absolute file.parts) := by
    by_cases hempty : file = ⟨false, []⟩
    · exact .inl (if_pos hempty)
    · right
      apply h.resolve_eq
      · rw [or_iff_not_imp_left, not_not]
        intro hparts
        by_contra habsolute
        exact hempty (Path.ext (Bool.eq_false_iff.2 habsolute) hparts)
      · exact fun pre => Path.prefix_parentPath
  rw [Filesystem.writeFile]
  rcases hresolve with hnone | hsome
  · rw [hnone]
  · rw [hsome]
    cases hplace : w.place file.absolute file.parts with
    | nil => rfl
    | cons a l =>
      rw [hplace] at hdir
      simp [hdir]

theorem Along.writeFile_of_free (h : Along w file.parentPath file.parentPath.parts u)
    (data : List UInt8)
    (hfree : u.disk.node (w.place file.absolute file.parts) ≠ some .dir) :
    ∃ v, u.writeFile file data = some v ∧ v.effects = u.effects ++ [.wrote file] := by
  have hne : file.parts ≠ [] := by
    intro hnil
    apply hfree
    rw [hnil]
    exact h.visited [] List.nil_prefix
  have hresolve : u.resolve file = some (w.place file.absolute file.parts) :=
    h.resolve_eq (.inl hne) fun pre => Path.prefix_parentPath
  have hparent : u.disk.node (w.place file.absolute file.parts.dropLast) = some .dir :=
    h.visited _ (List.prefix_refl _)
  have hplace : w.place file.absolute file.parts =
      file.parts.getLast hne :: w.place file.absolute file.parts.dropLast := by
    have hconcat := place_concat w file.absolute file.parts.dropLast (file.parts.getLast hne)
    rw [List.dropLast_append_getLast hne] at hconcat
    rw [hconcat] at hfree ⊢
    exact Path.node_step_of_dir hparent hfree
  rw [hplace] at hfree hresolve
  have hrun : u.writeFile file data = some { u with
      disk := u.disk.putFile _ _ data hparent hfree
      effects := u.effects ++ [.wrote file] } := by
    simp only [Filesystem.writeFile, hresolve, dif_pos hparent, dif_pos hfree]
  exact ⟨_, hrun, rfl⟩

theorem entryFread_eq (entry : Entry) (h : Along w file.parentPath file.parentPath.parts u) :
    ∃ v wrote, (entryFread entry file u = .ok () v ∧ wrote = true ∨
        ∃ e, entryFread entry file u = .error e v) ∧
      v.effects = u.effects ++ (if wrote then [.wrote file] else []) ∧
      (wrote = true ↔ entry.isDirectory = false ∧ entry.supported = true ∧
        u.disk.node (w.place file.absolute file.parts) ≠ some .dir) := by
  unfold entryFread
  cases hdirectory : entry.isDirectory with
  | true => exact ⟨u, false, .inr ⟨_, rfl⟩, by simp, by simp⟩
  | false =>
    cases hsupported : entry.supported with
    | false => exact ⟨u, false, .inr ⟨_, rfl⟩, by simp, by simp⟩
    | true =>
      by_cases hfree : u.disk.node (w.place file.absolute file.parts) = some .dir
      · rw [h.writeFile_of_dir entry.data hfree]
        exact ⟨u, false, .inr ⟨_, rfl⟩, by simp, by simp [hfree]⟩
      · obtain ⟨v, hwrite, heffects⟩ := h.writeFile_of_free entry.data hfree
        rw [hwrite]
        refine ⟨v, true, ?_, by simp [heffects], by simp [hfree]⟩
        cases entry.damaged with
        | true => exact .inr ⟨_, rfl⟩
        | false => exact .inl ⟨rfl, rfl⟩

/-- The archive has a readable file of that name, and it can be written. -/
def Writable (archive : List Entry) (fileName : List Char) (file : Path) (w : World) : Prop :=
  ¬Blocked w file.parentPath ∧ w.disk.node (w.place file.absolute file.parts) ≠ some .dir ∧
    fileName ≠ [] ∧ ∃ entry, locate archive fileName = some entry ∧ entry.isDirectory = false ∧
      entry.supported = true

/-- The effects of one call on the way from `w` to `u`. -/
def Outcome (archive : List Entry) (fileName : List Char) (file : Path) (w u : World)
    (wrote : Bool) : Prop :=
  ∃ es, u.effects = w.effects ++ (es ++ if wrote then [.wrote file] else []) ∧
    (∀ e, e ∈ es ↔ ∃ pre, Missing w file.parentPath pre ∧ e = .created ⟨file.absolute, pre⟩) ∧
      ((∀ pre, ¬Missing w file.parentPath pre) →
        (wrote = true ↔ Writable archive fileName file w))

theorem Along.outcome {v : World} {wrote : Bool}
    (h : Along w file.parentPath file.parentPath.parts u)
    (heffects : v.effects = u.effects ++ if wrote then [.wrote file] else [])
    (hwrote : wrote = true ↔ fileName ≠ [] ∧ (∃ entry, locate archive fileName = some entry ∧
      entry.isDirectory = false ∧ entry.supported = true) ∧
        u.disk.node (w.place file.absolute file.parts) ≠ some .dir) :
    Outcome archive fileName file w v wrote := by
  obtain ⟨es, hes, hmem, hdisk⟩ := h.effects
  refine ⟨es, by rw [heffects, hes, List.append_assoc], ?_, ?_⟩
  · intro e
    rw [hmem]
    constructor
    · rintro ⟨pre, _, hmissing, rfl⟩
      exact ⟨pre, hmissing, rfl⟩
    · rintro ⟨pre, hmissing, rfl⟩
      exact ⟨pre, hmissing.1, hmissing, rfl⟩
  · intro hnone
    have hnil : es = [] := by
      apply List.eq_nil_iff_forall_not_mem.2
      intro e he
      obtain ⟨pre, _, hmissing, _⟩ := (hmem e).1 he
      exact hnone pre hmissing
    have hblocked : ¬Blocked w file.parentPath := by
      rintro ⟨pre, f, hpre, hfile⟩
      exact h.no_file pre f hpre hfile
    rw [hwrote, hdisk hnil, Writable]
    constructor
    · rintro ⟨hname, hentry, hfree⟩
      exact ⟨hblocked, hfree, hname, hentry⟩
    · rintro ⟨_, hfree, hname, hentry⟩
      exact ⟨hname, hentry, hfree⟩

theorem Created.outcome (hblocked : Blocked w file.parentPath) (h : Created w file.parentPath u) :
    Outcome archive fileName file w u false := by
  obtain ⟨es, hes, hmem⟩ := h
  refine ⟨es, by simp [hes], hmem, ?_⟩
  intro _
  simp [Writable, hblocked]

theorem wp_entryFread (h : Along w file.parentPath file.parentPath.parts u) :
    wp (do entryFread (← entryOpen archive fileName) file)
      (fun _ v => Outcome archive fileName file w v true)
      (fun _ v => ∃ wrote, Outcome archive fileName file w v wrote) u := by
  rw [wp_bind]
  by_cases hname : fileName = []
  · rw [entryOpen, if_pos hname]
    exact ⟨false, h.outcome (by simp) (by simp [hname])⟩
  · rw [entryOpen, if_neg hname]
    cases hlocate : locate archive fileName with
    | none => exact ⟨false, h.outcome (by simp) (by simp [hlocate])⟩
    | some entry =>
      rw [wp_pure]
      obtain ⟨v, wrote, hrun, heffects, hwrote⟩ := entryFread_eq entry h
      have houtcome : Outcome archive fileName file w v wrote := by
        apply h.outcome heffects
        rw [hwrote, hlocate]
        simp [hname, and_assoc]
      rcases hrun with ⟨hrun, rfl⟩ | ⟨e, hrun⟩
      · rw [wp_of_ok hrun]
        exact houtcome
      · rw [wp_of_error hrun]
        exact ⟨wrote, houtcome⟩

theorem start_of_status (hstatus : w.status targetDir = some .dir) (name : Path) :
    w.disk.node (w.place (targetDir / name).absolute []) = some .dir := by
  cases habsolute : (targetDir / name).absolute with
  | true => exact w.disk.root
  | false =>
    rw [absolute_div, Bool.or_eq_false_iff] at habsolute
    rw [Filesystem.status, Filesystem.resolve] at hstatus
    split at hstatus
    · cases hstatus
    · rename_i hempty
      cases hparts : targetDir.parts with
      | nil => exact absurd (Path.ext habsolute.2 hparts) hempty
      | cons c names =>
        rw [hparts, Path.resolve, habsolute.2] at hstatus
        by_contra hdir
        rw [if_neg hdir] at hstatus
        cases hstatus

theorem wp_uncompress (archive : List Entry) (fileName : List Char)
    (hstatus : w.status targetDir = some .dir) :
    wp (uncompress archive fileName targetDir)
      (fun _ u => Outcome archive fileName (targetDir / parse fileName) w u true)
      (fun _ u => ∃ wrote, Outcome archive fileName (targetDir / parse fileName) w u wrote) w := by
  rw [uncompress, wp_bind, wp_get, wp_bind, wp_require]
  refine ⟨fun _ => ?_, fun h => absurd hstatus h⟩
  rw [wp_bind]
  have hstart : w.disk.node (w.place (targetDir / parse fileName).parentPath.absolute []) =
      some .dir := start_of_status hstatus (parse fileName)
  apply (wp_createDirectories hstart).mono
  · intro _ u hu
    exact wp_entryFread hu
  · rintro _ u ⟨hblocked, hu⟩
    exact ⟨false, hu.outcome hblocked⟩

end Extraction

section Containment

variable {archive : List Entry} {targetDir : Path} {fileName : List Char} {w : World}

/-- The effects of `run`, the first one first. -/
def newEffects (run : Extraction Unit) (w : World) : List Effect :=
  (final (run w)).effects.drop w.effects.length

/-- For a name that leads elsewhere the call throws and writes nothing. -/
def Refuses (archive : List Entry) (targetDir : Path) (fileName : List Char) (w : World) : Prop :=
  ¬Path.Inside targetDir (targetDir / parse fileName) →
    (∃ e u, uncompress archive fileName targetDir w = .error e u) ∧
      newEffects (uncompress archive fileName targetDir) w = []

structure Contained (archive : List Entry) (targetDir : Path) (fileName : List Char) (w : World) :
    Prop where
  inside : ∀ e ∈ newEffects (uncompress archive fileName targetDir) w,
    Path.Inside targetDir e.path
  outside : Refuses archive targetDir fileName w

/-- The condition on the state before the call: what has to be created lies below the target
directory, and so does the file, unless nothing is created and the file cannot be written. -/
def StaysInside (archive : List Entry) (targetDir : Path) (fileName : List Char) (w : World) :
    Prop :=
  w.status targetDir = some .dir →
    let file := targetDir / parse fileName
    (∀ pre, Missing w file.parentPath pre → Path.Inside targetDir ⟨file.absolute, pre⟩) ∧
      (Path.Inside targetDir file ∨
        (∀ pre, ¬Missing w file.parentPath pre) ∧ ¬Writable archive fileName file w)

theorem newEffects_of_outcome {run : Extraction Unit} {file : Path} {wrote : Bool}
    (h : Outcome archive fileName file w (final (run w)) wrote) :
    ∃ es, newEffects run w = es ++ (if wrote then [.wrote file] else []) ∧
      (∀ e, e ∈ es ↔ ∃ pre, Missing w file.parentPath pre ∧ e = .created ⟨file.absolute, pre⟩) ∧
        ((∀ pre, ¬Missing w file.parentPath pre) →
          (wrote = true ↔ Writable archive fileName file w)) := by
  obtain ⟨es, hes, hrest⟩ := h
  refine ⟨es, ?_, hrest⟩
  rw [newEffects, hes, List.drop_left]

theorem uncompress_of_status (archive : List Entry) (fileName : List Char)
    (hstatus : w.status targetDir ≠ some .dir) :
    uncompress archive fileName targetDir w =
      .error (.ioError ZipError.notADirectory targetDir) w := by
  have hwp : wp (uncompress archive fileName targetDir) (fun _ _ => False)
      (fun e u => e = .ioError ZipError.notADirectory targetDir ∧ u = w) w := by
    rw [uncompress, wp_bind, wp_get, wp_bind, wp_require]
    exact ⟨fun h => absurd h hstatus, fun _ => ⟨rfl, rfl⟩⟩
  obtain ⟨e, u, hrun, rfl, rfl⟩ := hwp.exists_error fun _ _ h => h
  exact hrun

/-- What a call on an existing target directory does. -/
theorem uncompress_effects (archive : List Entry) (fileName : List Char)
    (hstatus : w.status targetDir = some .dir) :
    ∃ es wrote, newEffects (uncompress archive fileName targetDir) w =
        es ++ (if wrote then [.wrote (targetDir / parse fileName)] else []) ∧
      (wrote = false → ∃ e u, uncompress archive fileName targetDir w = .error e u) ∧
      (∀ e, e ∈ es ↔ ∃ pre, Missing w (targetDir / parse fileName).parentPath pre ∧
        e = .created ⟨(targetDir / parse fileName).absolute, pre⟩) ∧
      ((∀ pre, ¬Missing w (targetDir / parse fileName).parentPath pre) →
        (wrote = true ↔ Writable archive fileName (targetDir / parse fileName) w)) := by
  have hwp := wp_uncompress archive fileName hstatus
  cases hrun : uncompress archive fileName targetDir w with
  | ok a u =>
    have houtcome := hwp.ok hrun
    rw [← show final (uncompress archive fileName targetDir w) = u by rw [hrun]; rfl] at houtcome
    obtain ⟨es, hes, hmem, hwrote⟩ := newEffects_of_outcome houtcome
    exact ⟨es, true, hes, by simp, hmem, hwrote⟩
  | error e u =>
    obtain ⟨wrote, houtcome⟩ := hwp.error hrun
    rw [← show final (uncompress archive fileName targetDir w) = u by rw [hrun]; rfl] at houtcome
    obtain ⟨es, hes, hmem, hwrote⟩ := newEffects_of_outcome houtcome
    exact ⟨es, wrote, hes, fun _ => ⟨e, u, rfl⟩, hmem, hwrote⟩

theorem contained_iff (archive : List Entry) (targetDir : Path) (fileName : List Char) (w : World) :
    Contained archive targetDir fileName w ↔ StaysInside archive targetDir fileName w := by
  by_cases hstatus : w.status targetDir = some .dir
  · obtain ⟨es, wrote, heffects, hfails, hmem, hwrote⟩ :=
      uncompress_effects archive fileName hstatus
    constructor
    · intro h _
      constructor
      · intro pre hpre
        apply h.inside (.created ⟨_, pre⟩)
        rw [heffects, List.mem_append, hmem]
        exact .inl ⟨pre, hpre, rfl⟩
      · rw [or_iff_not_imp_left]
        intro houtside
        have hnone := (h.outside houtside).2
        rw [heffects, List.append_eq_nil_iff] at hnone
        have hmissing : ∀ pre, ¬Missing w (targetDir / parse fileName).parentPath pre := by
          intro pre hpre
          have he := (hmem _).2 ⟨pre, hpre, rfl⟩
          rw [hnone.1] at he
          cases he
        refine ⟨hmissing, ?_⟩
        rw [← hwrote hmissing]
        rintro rfl
        simp at hnone
    · intro h
      obtain ⟨hcreated, hfile⟩ := h hstatus
      constructor
      · intro e he
        rw [heffects, List.mem_append, hmem] at he
        rcases he with ⟨pre, hpre, rfl⟩ | he
        · exact hcreated pre hpre
        · cases wrote with
          | false => cases he
          | true =>
            rw [if_pos rfl, List.mem_singleton] at he
            subst he
            apply hfile.resolve_right
            rintro ⟨hmissing, hunwritable⟩
            exact hunwritable ((hwrote hmissing).1 rfl)
      · intro houtside
        obtain ⟨hmissing, hunwritable⟩ := hfile.resolve_left houtside
        rw [← hwrote hmissing, Bool.not_eq_true] at hunwritable
        refine ⟨hfails hunwritable, ?_⟩
        rw [heffects, hunwritable]
        simp only [Bool.false_eq_true, if_false, List.append_nil]
        apply List.eq_nil_iff_forall_not_mem.2
        intro e he
        obtain ⟨pre, hpre, _⟩ := (hmem e).1 he
        exact hmissing pre hpre
  · have hrun := uncompress_of_status archive fileName hstatus
    have hnone : newEffects (uncompress archive fileName targetDir) w = [] := by
      rw [newEffects, hrun]
      exact List.drop_length
    constructor
    · exact fun _ h => absurd h hstatus
    · intro _
      constructor
      · simp [hnone]
      · exact fun _ => ⟨⟨_, _, hrun⟩, hnone⟩

theorem effects_uncompress (archive : List Entry) (targetDir : Path) (fileName : List Char)
    (w : World) : (final (uncompress archive fileName targetDir w)).effects =
      w.effects ++ newEffects (uncompress archive fileName targetDir) w := by
  by_cases hstatus : w.status targetDir = some .dir
  · have hwp : wp (uncompress archive fileName targetDir)
        (fun _ u => w.effects <+: u.effects) (fun _ u => w.effects <+: u.effects) w := by
      apply (wp_uncompress archive fileName hstatus).mono
      · rintro _ u ⟨es, hes, _⟩
        exact ⟨_, hes.symm⟩
      · rintro _ u ⟨_, es, hes, _⟩
        exact ⟨_, hes.symm⟩
    obtain ⟨es, hes⟩ := wp.final (R := fun u : World => w.effects <+: u.effects) hwp
    rw [newEffects, ← hes, List.drop_left]
  · rw [newEffects, uncompress_of_status archive fileName hstatus]
    simp [final]

/-- What the rest of the list does after one call. -/
def restEffects (archive : List Entry) (targetDir : Path) (names : List (List Char)) :
    EStateM.Result Error World Unit → List Effect
  | .ok _ u => newEffects (uncompressList archive targetDir names) u
  | .error _ _ => []

theorem effects_uncompressList_cons {archive : List Entry} {targetDir : Path}
    {names : List (List Char)}
    (hrest : ∀ u, (final (uncompressList archive targetDir names u)).effects =
      u.effects ++ newEffects (uncompressList archive targetDir names) u)
    (fileName : List Char) (w : World) :
    (final (uncompressList archive targetDir (fileName :: names) w)).effects =
      w.effects ++ (newEffects (uncompress archive fileName targetDir) w ++
        restEffects archive targetDir names (uncompress archive fileName targetDir w)) := by
  have hcall := effects_uncompress archive targetDir fileName w
  rw [uncompressList]
  cases hrun : uncompress archive fileName targetDir w with
  | ok _ u =>
    rw [hrun] at hcall
    rw [bind_ok hrun, hrest u, show u.effects = _ from hcall, restEffects, List.append_assoc]
  | error e u =>
    rw [hrun] at hcall
    rw [bind_error _ hrun, show (final (EStateM.Result.error e u)).effects = _ from hcall,
      restEffects, List.append_nil]

theorem effects_uncompressList (archive : List Entry) (targetDir : Path)
    (names : List (List Char)) (w : World) :
    (final (uncompressList archive targetDir names w)).effects =
      w.effects ++ newEffects (uncompressList archive targetDir names) w := by
  induction names generalizing w with
  | nil => simp [newEffects, uncompressList, final, pure, EStateM.pure]
  | cons fileName names ih =>
    rw [newEffects, effects_uncompressList_cons ih, List.drop_left]

theorem newEffects_cons (archive : List Entry) (targetDir : Path) (fileName : List Char)
    (names : List (List Char)) (w : World) :
    newEffects (uncompressList archive targetDir (fileName :: names)) w =
      newEffects (uncompress archive fileName targetDir) w ++
        restEffects archive targetDir names (uncompress archive fileName targetDir w) := by
  rw [newEffects, effects_uncompressList_cons (effects_uncompressList archive targetDir names),
    List.drop_left]

/-- `Q` holds of each call that `uncompressAll` makes, in the world in which it is made. -/
def EachCall (archive : List Entry) (targetDir : Path) (Q : List Char → World → Prop) :
    List (List Char) → World → Prop
  | [], _ => True
  | fileName :: names, w => Q fileName w ∧
      ∀ u, uncompress archive fileName targetDir w = .ok () u → EachCall archive targetDir Q names u

structure ContainedAll (archive : List Entry) (targetDir : Path) (names : List (List Char))
    (w : World) : Prop where
  inside : ∀ e ∈ newEffects (uncompressList archive targetDir names) w,
    Path.Inside targetDir e.path
  outside : EachCall archive targetDir (Refuses archive targetDir) names w

theorem containedAll_iff (archive : List Entry) (targetDir : Path) (names : List (List Char))
    (w : World) : ContainedAll archive targetDir names w ↔
      EachCall archive targetDir (StaysInside archive targetDir) names w := by
  induction names generalizing w with
  | nil =>
    constructor
    · exact fun _ => trivial
    · intro _
      constructor
      · simp [newEffects, uncompressList, final, pure, EStateM.pure]
      · trivial
  | cons fileName names ih =>
    have heffects := newEffects_cons archive targetDir fileName names w
    constructor
    · rintro ⟨hinside, hrefuses, hrest⟩
      rw [heffects] at hinside
      constructor
      · rw [← contained_iff]
        exact ⟨fun e he => hinside e (List.mem_append_left _ he), hrefuses⟩
      · intro u hrun
        rw [← ih]
        rw [hrun] at hinside
        exact ⟨fun e he => hinside e (List.mem_append_right _ he), hrest u hrun⟩
    · rintro ⟨hstays, hrest⟩
      rw [← contained_iff] at hstays
      constructor
      · rw [heffects]
        intro e he
        rcases List.mem_append.1 he with he | he
        · exact hstays.inside e he
        · cases hrun : uncompress archive fileName targetDir w with
          | ok _ u =>
            rw [hrun] at he
            exact ((ih u).2 (hrest u hrun)).inside e he
          | error _ _ =>
            rw [hrun] at he
            cases he
      · exact ⟨hstays.outside, fun u hrun => ((ih u).2 (hrest u hrun)).outside⟩

theorem extraction_contained_iff (archive : List Entry) (targetDir : Path) (w : World) :
    (∀ fileName, Contained archive targetDir fileName w ↔
        StaysInside archive targetDir fileName w) ∧
      (ContainedAll archive targetDir (listFiles archive) w ↔
        EachCall archive targetDir (StaysInside archive targetDir) (listFiles archive) w) :=
  ⟨fun fileName => contained_iff archive targetDir fileName w,
    containedAll_iff archive targetDir (listFiles archive) w⟩

/-- An entry that names a file beside the target directory. -/
def slipping : List Entry :=
  [{ name := ['.', '.', '/', 'x'], data := [1] }]

def emptyTarget : World where
  disk := FileTree.empty.makeDir ['t'] [] rfl
  cwd := []

theorem not_contained_slipping :
    emptyTarget.status (parse ['t']) = some .dir ∧
      ¬Contained slipping (parse ['t']) ['.', '.', '/', 'x'] emptyTarget ∧
        ¬ContainedAll slipping (parse ['t']) (listFiles slipping) emptyTarget := by
  have hone : newEffects (uncompress slipping ['.', '.', '/', 'x'] (parse ['t'])) emptyTarget =
      [.wrote ⟨false, [['t'], ['.', '.'], ['x']]⟩] := by decide
  have hall : newEffects (uncompressAll slipping (parse ['t'])) emptyTarget =
      [.wrote ⟨false, [['t'], ['.', '.'], ['x']]⟩] := by decide
  have hoff : ¬Path.Inside (parse ['t']) ⟨false, [['t'], ['.', '.'], ['x']]⟩ := by decide
  refine ⟨by decide, ?_, ?_⟩
  · intro h
    apply hoff
    exact h.inside _ (by rw [hone]; exact List.mem_singleton_self _)
  · intro h
    apply hoff
    exact h.inside _ (by rw [← uncompressAll, hall]; exact List.mem_singleton_self _)

end Containment

end Utlib.ZipArchive
