import EvoCI.StagingRuns
import EvoCI.Graph.Steps

/-! From the write calls of a repair worker to the files that `apply_candidate` changes:
within the write scope of the task, as long as no path is spelled with whitespace
around it. -/

namespace EvoCI

open Library

/-! ## Spellings -/

/-- No whitespace surrounds the path. -/
def Unspaced (path : String) : Prop := strip path = path

/-- The path strings that the tool hands on as they are have no whitespace around
them; `apply_patch` hands on normalized ones. -/
def WriteCall.Unspaced : WriteCall → Prop
  | .replaceText path _ _ _ | .createFile path _ | .deleteFile path => EvoCI.Unspaced path
  | .applyPatch _ | .runSkillScript _ _ => True

/-- A normalized path of the scope names the location: the path is resolved, and through a link
the location is the one behind it. -/
def InScope (files : Files) (root : Loc) (writeScope : List String) (l : Loc) : Prop :=
  ∃ path ∈ writeScope, ∃ normalized, normalizeWritePath path = .ok normalized ∧
    files.resolve root normalized = .ok l

theorem assertWritePathAllowed_ok {path normalized : String} {writeScope : List String}
    (h : assertWritePathAllowed path writeScope = .ok normalized) :
    normalizeWritePath path = .ok normalized ∧ (writeScope ≠ [] → normalized ∈ writeScope) := by
  unfold assertWritePathAllowed at h
  split at h
  · cases h
  next found hfound =>
    split at h
    · cases h
    next hallowed =>
      cases h
      refine ⟨hfound, fun hscope => ?_⟩
      by_contra hout
      exact hallowed ⟨hscope, hout⟩

theorem assertEditsAllowed_ok {allowed : List String} {edits : List FileEdit}
    (h : assertEditsAllowed allowed edits = .ok ()) :
    ∀ edit ∈ edits, ∃ normalized, assertWritePathAllowed edit.path allowed = .ok normalized := by
  induction edits with
  | nil => simp
  | cons edit edits ih =>
    unfold assertEditsAllowed at h
    split at h
    · cases h
    next normalized hnormalized =>
      intro other hother
      rcases List.mem_cons.mp hother with rfl | hother
      · exact ⟨normalized, hnormalized⟩
      · exact ih h other hother

theorem mem_normalizeWritePaths {paths normalized : List String}
    (h : normalizeWritePaths paths = .ok normalized) {n : String} (hn : n ∈ normalized) :
    ∃ path ∈ paths, normalizeWritePath path = .ok n := by
  induction paths generalizing normalized with
  | nil =>
    cases h
    cases hn
  | cons path paths ih =>
    unfold normalizeWritePaths at h
    split at h
    · cases h
    next first hfirst =>
      split at h
      · cases h
      next rest hrest =>
        cases h
        rcases List.mem_cons.mp hn with rfl | hn
        · exact ⟨path, List.mem_cons_self, hfirst⟩
        · obtain ⟨other, hother, hok⟩ := ih hrest hn
          exact ⟨other, List.mem_cons_of_mem _ hother, hok⟩

theorem normalizeWritePaths_ne_nil {paths normalized : List String}
    (h : normalizeWritePaths paths = .ok normalized) (hpaths : paths ≠ []) : normalized ≠ [] := by
  cases paths with
  | nil => exact absurd rfl hpaths
  | cons path paths =>
    unfold normalizeWritePaths at h
    split at h
    · cases h
    · split at h
      · cases h
      · cases h
        exact List.cons_ne_nil _ _

theorem mem_fromKeys (items : List String) (item : String) :
    item ∈ fromKeys items ↔ item ∈ items := by
  have hfold : ∀ d : Dict String Unit,
      item ∈ Dict.keys (items.foldl (fun d item => Dict.set d item ()) d) ↔
        item ∈ Dict.keys d ∨ item ∈ items := by
    induction items with
    | nil => simp
    | cons first items ih =>
      intro d
      rw [List.foldl_cons, ih, Dict.mem_keys_set, List.mem_cons]
      tauto
  unfold fromKeys
  rw [hfold]
  simp

/-- The allowed writes of a worker are the normalized paths of its scope. -/
theorem mem_normalizeWriteScope {writeScope allowed : List String}
    (h : normalizeWriteScope writeScope = .ok allowed) {n : String} (hn : n ∈ allowed) :
    ∃ path ∈ writeScope, normalizeWritePath path = .ok n := by
  unfold normalizeWriteScope at h
  split at h
  · cases h
  next unique hunique =>
    cases h
    rw [mem_fromKeys] at hn
    exact mem_normalizeWritePaths hunique hn

theorem normalizeWriteScope_ne_nil {writeScope allowed : List String}
    (h : normalizeWriteScope writeScope = .ok allowed) (hscope : writeScope ≠ []) :
    allowed ≠ [] := by
  rintro rfl
  unfold normalizeWriteScope at h
  split at h
  · cases h
  next unique hunique =>
    obtain ⟨n, hn⟩ := List.exists_mem_of_ne_nil _ (normalizeWritePaths_ne_nil hunique hscope)
    have hnil : fromKeys unique = [] := Except.ok.inj h
    have hin := (mem_fromKeys unique n).mpr hn
    rw [hnil] at hin
    cases hin

/-- An unspaced path names the file that its normalization names. -/
theorem resolve_normalized {path normalized : String} (hspace : Unspaced path)
    (h : normalizeWritePath path = .ok normalized) {files : Files} {root l : Loc}
    (hl : files.resolve root path = .ok l) : files.resolve root normalized = .ok l := by
  obtain ⟨hparts, habsolute, hraw, -⟩ := normalizeWritePath_ok h
  rw [hspace] at hparts hraw
  exact Files.resolve_of_parts hparts (habsolute.trans hraw.symm) hl

/-! ## What the calls record -/

section Calls

variable {registry : WriteRegistry} {files : Files}

/-- A recorded path that the scope check reads as the tools do. -/
def Recordable (registry : WriteRegistry) (path : String) : Prop :=
  Unspaced path ∨ path ∈ registry.allowedWrites

theorem requireWritePath_ok {path normalized : String} (hscope : registry.allowedWrites ≠ [])
    (h : registry.requireWritePath files path = .ok normalized) :
    normalized ∈ registry.allowedWrites := by
  unfold WriteRegistry.requireWritePath at h
  split at h
  · cases h
  next found hfound =>
    split at h
    · cases h
    · split at h
      · cases h
      · cases h
        exact (assertWritePathAllowed_ok hfound).2 hscope

theorem guardPaths_keys (hscope : registry.allowedWrites ≠ []) (entries : List (String × String))
    {guarded result : Dict String String}
    (h : registry.guardPaths files entries guarded = .ok result)
    (hguarded : ∀ path ∈ Dict.keys guarded, path ∈ registry.allowedWrites) :
    ∀ path ∈ Dict.keys result, path ∈ registry.allowedWrites := by
  induction entries generalizing guarded with
  | nil =>
    cases h
    exact hguarded
  | cons entry entries ih =>
    obtain ⟨path, content⟩ := entry
    unfold WriteRegistry.guardPaths at h
    split at h
    · cases h
    next normalized hnormalized =>
      refine ih h fun other hother => ?_
      rcases (Dict.mem_keys_set _ _ _ _).mp hother with rfl | hother
      · exact requireWritePath_ok hscope hnormalized
      · exact hguarded other hother

/-- The result of `apply_patch` names the paths it was given. -/
theorem patchFiles_paths (denied : Loc → Bool) (root : Loc) (entries : List (String × String))
    {given result : PatchApplicationResult} {files' : Files}
    (h : files.patchFiles denied root entries given = (files', .ok result)) :
    ∀ path ∈ result.paths, path ∈ given.paths ∨ path ∈ entries.map Prod.fst := by
  induction entries generalizing files given with
  | nil =>
    cases h
    exact fun path hpath => .inl hpath
  | cons entry entries ih =>
    obtain ⟨path, content⟩ := entry
    unfold Files.patchFiles at h
    split at h
    · cases h
    · split at h
      · cases h
      · intro other hother
        rcases ih h other hother with hgiven | hrest
        · have hsplit : other ∈ given.paths ∨ other = path := by
            revert hgiven
            split <;>
              · simp only [PatchApplicationResult.paths, List.mem_filter, List.mem_append,
                  List.mem_singleton]
                tauto
          rcases hsplit with hin | rfl
          · exact .inl hin
          · exact .inr List.mem_cons_self
        · exact .inr (List.mem_cons_of_mem _ hrest)

/-- What a tool names when its write succeeds. -/
theorem map_named {written : Except PyError Files} {named : PatchApplicationResult}
    {p : Files × PatchApplicationResult}
    (h : (written.map fun files' => (files', named)) = .ok p) : p.2 = named := by
  cases written with
  | error e => cases h
  | ok files' =>
    cases h
    rfl

/-- The tools for one file name in their result the path they were given. -/
theorem performed_paths {result : Except PyError (Files × PatchApplicationResult)}
    {files' : Files} {named : PatchApplicationResult} {path : String}
    (h : performed files result = (files', .ok named))
    (hresult : ∀ p, result = .ok p → p.2.paths ⊆ [path]) : named.paths ⊆ [path] := by
  unfold performed at h
  split at h
  · cases h
  · cases h
    exact hresult _ rfl

theorem replaceText_paths {denied : Loc → Bool} {root : Loc} {path oldText newText : String}
    {expected : Int} {p : Files × PatchApplicationResult}
    (h : files.replaceText denied root path oldText newText expected = .ok p) :
    p.2.paths ⊆ [path] := by
  unfold Files.replaceText at h
  simp only at h
  repeat' split at h
  all_goals try cases h
  all_goals
    rw [map_named h]
    simp [PatchApplicationResult.paths]

theorem createFile_paths {denied : Loc → Bool} {root : Loc} {path content : String}
    {p : Files × PatchApplicationResult}
    (h : files.createFile denied root path content = .ok p) : p.2.paths ⊆ [path] := by
  unfold Files.createFile at h
  split at h
  · cases h
  · split at h
    · cases h
    · rw [map_named h]
      simp [PatchApplicationResult.paths]

theorem deleteFile_paths {denied : Loc → Bool} {root : Loc} {path : String}
    {p : Files × PatchApplicationResult}
    (h : files.deleteFile denied root path = .ok p) : p.2.paths ⊆ [path] := by
  unfold Files.deleteFile at h
  split at h
  · cases h
  · rw [map_named h]
    simp [PatchApplicationResult.paths]

/-- A call records paths that the scope check reads as the tools do. -/
theorem perform_recordable (hscope : registry.allowedWrites ≠ []) {call : WriteCall}
    (hcall : call.Unspaced) {files' : Files} {result : PatchApplicationResult}
    (h : call.perform registry files = (files', .ok result)) :
    ∀ path ∈ result.paths, Recordable registry path := by
  have hone : ∀ path, Unspaced path → result.paths ⊆ [path] →
      ∀ other ∈ result.paths, Recordable registry other := by
    intro path hpath hnamed other hother
    rw [List.mem_singleton.mp (hnamed hother)]
    exact .inl hpath
  cases call with
  | applyPatch entries =>
    simp only [WriteCall.perform] at h
    split at h
    · cases h
    next guarded hguarded =>
      have hkeys := guardPaths_keys hscope entries hguarded (by simp)
      unfold Files.applyPatch at h
      split at h
      · cases h
      · intro path hpath
        rcases patchFiles_paths _ _ _ h path hpath with hin | hin
        · cases hin
        · exact .inr (hkeys path hin)
  | replaceText path oldText newText expected =>
    simp only [WriteCall.perform] at h
    split at h
    · cases h
    · exact hone path hcall (performed_paths h fun p hp => replaceText_paths hp)
  | createFile path content =>
    simp only [WriteCall.perform] at h
    split at h
    · cases h
    · exact hone path hcall (performed_paths h fun p hp => createFile_paths hp)
  | deleteFile path =>
    simp only [WriteCall.perform] at h
    split at h
    · cases h
    · exact hone path hcall (performed_paths h fun p hp => deleteFile_paths hp)
  | runSkillScript after error =>
    simp only [WriteCall.perform] at h
    split at h
    · cases h
      simp [PatchApplicationResult.paths]
    · cases h

theorem invoke_recordable (hscope : registry.allowedWrites ≠ []) {call : WriteCall}
    (hcall : call.Unspaced) {st : Staging}
    (hst : ∀ path ∈ st.changedPaths, Recordable registry path) :
    ∀ path ∈ (st.invoke registry call).changedPaths, Recordable registry path := by
  unfold Staging.invoke
  split
  · exact hst
  next files' result hresult =>
    intro path hpath
    rcases List.mem_append.mp hpath with hin | hin
    · exact hst path hin
    · exact perform_recordable hscope hcall hresult path hin

/-- So does every run of such calls. -/
theorem run_recordable (hscope : registry.allowedWrites ≠ []) {calls : List WriteCall}
    (hcalls : ∀ call ∈ calls, call.Unspaced) {st : Staging}
    (hst : ∀ path ∈ st.changedPaths, Recordable registry path) :
    ∀ path ∈ (Run.run (Staging.invoke registry) st calls).changedPaths,
      Recordable registry path := by
  induction calls generalizing st with
  | nil => exact hst
  | cons call calls ih =>
    have hfirst := invoke_recordable hscope (hcalls call List.mem_cons_self) hst
    exact ih (fun other hother => hcalls other (List.mem_cons_of_mem _ hother)) hfirst

end Calls

/-! ## What applying the candidate changes -/

/-- `apply_candidate` changes the files of edits that pass the scope check only. -/
theorem applyCandidate_within (cfg : Config) (env : NodeEnv) (s : EvoCIState) (w : World) :
    (applyCandidate cfg env s w).world.files = w.files ∨
      scopeCheck s = .ok () ∧
        w.files.Touches (applyCandidate cfg env s w).world.files
          (w.files.PathsAt cfg.root (s.edits.map FileEdit.path)) := by
  unfold applyCandidate
  split
  · exact .inl rfl
  · split
    · exact .inl rfl
    · exact .inl rfl
    next hscope =>
      split
      next plan w' hplan =>
        have hfiles : w'.files = w.files := (obtainPlan_ready hplan).1
        refine .inr ⟨hscope, ?_⟩
        have hwithin := applyEdits_within (applyContext cfg env s plan.baseline) env.crash
          s.edits (a := w'.attempt) rfl
        rw [← hfiles]
        unfold applyPlanned
        split <;> next hout => rw [hout] at hwithin; exact hwithin
      · exact .inl rfl
      · exact .inl rfl

/-- An edit that passes the scope check names, spelled without whitespace, a file in
the scope. -/
theorem scopeCheck_ok {s : EvoCIState} {task : WorkerTask} (htask : s.workerTask = some task)
    (hscope : task.writeScope ≠ []) (h : scopeCheck s = .ok ()) {edit : FileEdit}
    (hedit : edit ∈ s.edits) : ∃ path ∈ task.writeScope, ∃ normalized,
      normalizeWritePath path = .ok normalized ∧ normalizeWritePath edit.path = .ok normalized := by
  unfold scopeCheck at h
  rw [htask] at h
  unfold validateEditsAgainstScope at h
  simp only at h
  split at h
  · cases h
  next allowed hallowed =>
    obtain ⟨normalized, hnormalized⟩ := assertEditsAllowed_ok h edit hedit
    obtain ⟨hpath, hin⟩ := assertWritePathAllowed_ok hnormalized
    obtain ⟨path, hin, hok⟩ := mem_normalizeWritePaths hallowed
      (hin (normalizeWritePaths_ne_nil hallowed hscope))
    exact ⟨path, hin, normalized, hok, hpath⟩

/-- A worker whose calls spell no path with whitespace around it, and the paths it
resumes neither, changes the workspace within the scope of its task. -/
theorem changes_in_scope {cfg : Config} {env : NodeEnv} {s : EvoCIState} {w : World}
    {task : WorkerTask} {run : WorkerRun} {registry : WriteRegistry} {p : StagedPair}
    {calls : List WriteCall} {restoredPaths : List String} (htask : s.workerTask = some task)
    (hscope : task.writeScope ≠ [])
    (hregistry : normalizeWriteScope task.writeScope = .ok registry.allowedWrites)
    (hcalls : ∀ call ∈ calls, call.Unspaced) (hrestored : ∀ path ∈ restoredPaths, Unspaced path)
    (hedits : p.repairEdits registry calls restoredPaths task.writeScope = .ok run.edits)
    (houtput : s.fixerOutput = some (runOutput run)) {l : Loc}
    (hchanged : (applyCandidate cfg env s w).world.files.contentAt l ≠ w.files.contentAt l) :
    InScope w.files cfg.root task.writeScope l := by
  rcases applyCandidate_within cfg env s w with hsame | ⟨hcheck, hwithin⟩
  · exact absurd (by rw [hsame]) hchanged
  · have hat : w.files.PathsAt cfg.root (s.edits.map FileEdit.path) l := by
      by_contra hnot
      exact hchanged (hwithin.contentAt_eq hnot)
    obtain ⟨path, hpath, hl⟩ := hat
    obtain ⟨edit, hedit, rfl⟩ := List.mem_map.mp hpath
    have hl := (Files.boundaryResolve_ok hl).1
    have hin : edit ∈ run.edits := by
      simpa [EvoCIState.edits, houtput, runOutput, fixerOutputFromEdits] using hedit
    have hrecorded : Recordable registry edit.path := by
      rcases collectRepairEdits_path hedits edit hin with hchanged | hrest
      · exact run_recordable (normalizeWriteScope_ne_nil hregistry hscope) hcalls
          (by simp) _ hchanged
      · exact .inl (hrestored _ hrest)
    rcases hrecorded with hspace | hallowed
    · obtain ⟨path, hpath, normalized, hok, hnormalized⟩ := scopeCheck_ok htask hscope hcheck hedit
      exact ⟨path, hpath, normalized, hok, resolve_normalized hspace hnormalized hl⟩
    · obtain ⟨path, hpath, hok⟩ := mem_normalizeWriteScope hregistry hallowed
      exact ⟨path, hpath, edit.path, hok, hl⟩

namespace Sample

/-- The state in which the candidate of a worker is applied. -/
def candidate (edits : List FileEdit) : EvoCIState where
  failedCommands := [["test"]]
  workerTask := some (task "t")
  fixerOutput := some (runOutput (repair "t" edits))

def world : World := (GraphRun.start [["test"]] files 9 9).world

theorem replaced_in_scope : InScope files root ["a"] ["w", "a"] :=
  @changes_in_scope (config 1) {} (candidate [.replace "a" "new" (some "")]) world (task "t")
    (repair "t" [.replace "a" "new" (some "")]) registry pair [.replaceText "a" "old" "new" 1] []
    rfl (by decide) (by decide +kernel)
    (by
      intro call hcall
      rw [List.mem_singleton.mp hcall]
      show strip "a" = "a"
      decide +kernel)
    (by simp) (by decide +kernel) rfl _ (by decide +kernel)

/-- A path with a space after it passes every check of the scope and is written as
it is spelled. -/
theorem spaced_path_escapes :
    normalizeWriteScope (task "t").writeScope = .ok registry.allowedWrites ∧
      pair.repairEdits registry [.createFile "a " "evil"] [] (task "t").writeScope =
        .ok [.replace "a " "evil" none] ∧
      (applyCandidate (config 1) {} (candidate [.replace "a " "evil" none])
          world).world.files.contentAt
        ["w", "a "] = some (.utf8 "evil") ∧
      world.files.contentAt ["w", "a "] = none ∧
      ¬ InScope world.files (config 1).root (task "t").writeScope ["w", "a "] := by
  refine ⟨by decide +kernel, by decide +kernel, by decide +kernel, by decide +kernel, ?_⟩
  rintro ⟨path, hpath, normalized, hok, hl⟩
  have hpath : path = "a" := List.mem_singleton.mp hpath
  have hnormal : normalizeWritePath "a" = .ok "a" := by decide +kernel
  rw [hpath, hnormal] at hok
  cases hok
  have hresolve : world.files.resolve root "a" = .ok ["w", "a"] := by decide +kernel
  have hl : world.files.resolve root "a" = .ok ["w", "a "] := hl
  rw [hresolve] at hl
  exact absurd hl (by decide)

end Sample

end EvoCI
