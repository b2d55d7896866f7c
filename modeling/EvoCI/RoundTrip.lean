import Mathlib.Data.List.Induction
import EvoCI.Snapshot

/-! Restoring a batch snapshot into the workspace it was taken of, and what a
snapshot whose copy was cut short still holds. -/

namespace EvoCI

variable {umask : Nat}

/-- A location below a top-level name that restores manage. -/
def Managed (root l : Loc) : Prop := ∃ name rel, isKept name = false ∧ l = root ++ name :: rel

/-- The part of the tree that restores manage has no links, and no name that
copies leave out. -/
def Plain (files : Files) (root : Loc) : Prop :=
  ∀ name rel, isKept name = false → files (root ++ name :: rel) ≠ none →
    (∀ t, files (root ++ name :: rel) ≠ some (.link t)) ∧ Unignored isIgnored (name :: rel)

theorem saveBatchSnapshot_saved {c : Copying} {files : Files} {root : Loc} {snapshot : Snapshot}
    (h : saveBatchSnapshot c files root = .saved snapshot) :
    (copyTree c.umask files c.scandir isIgnored c.depth root root).2 = true ∧
      snapshot = withGit root (copyTree c.umask files c.scandir isIgnored c.depth root root).1
        c.gitMetadata := by
  unfold saveBatchSnapshot at h
  simp only at h
  split at h
  · split at h
    · cases h
    · split at h <;> cases h
  · split at h
    · cases h
    · split at h <;> cases h
  · split at h
    next hok =>
      cases h
      exact ⟨hok, rfl⟩
    · cases h

theorem withGit_managed (root : Loc) (effects : List TreeEffect) (git : Files) {l : Loc}
    (h : Managed root l) : (withGit root effects git).tree l = effectsOn l effects none := by
  obtain ⟨name, rel, hkept, rfl⟩ := h
  have hnot : ¬ root ++ [".git"] <+: root ++ name :: rel := by
    intro hp
    have hsub : [".git"] <+: name :: rel := (List.prefix_append_right_inj root).mp hp
    have hname : ".git" = name := (List.cons_prefix_cons.mp hsub).1
    subst hname
    simp [isKept] at hkept
  simp [withGit, hnot, applyEffects, noFiles]

theorem copyTree_target_ne_none {files : Files} {scandir : Loc → List String}
    {ignored : String → Bool} {depth : Nat} {src dst : Loc} :
    ∀ effect ∈ (copyTree umask files scandir ignored depth src dst).1, effect.target ≠ none := by
  intro effect heffect
  obtain ⟨rel, -, ht⟩ := copyTree_targets files scandir ignored depth src dst effect heffect
  simp [ht]

/-- Nothing stands in a copy under a name that copies leave out. -/
theorem copy_ignored {files : Files} {scandir : Loc → List String} {ignored : String → Bool}
    {depth : Nat} {src dst : Loc} {rel : List String} (h : ¬ Unignored ignored rel)
    (entry : Option Entry) :
    effectsOn (dst ++ rel) (copyTree umask files scandir ignored depth src dst).1 entry =
      entry := by
  apply effectsOn_of_other
  intro effect heffect
  obtain ⟨rest, hrest, ht⟩ := copyTree_targets files scandir ignored depth src dst effect heffect
  refine ⟨_, ht, fun heq => h ?_⟩
  rw [List.append_cancel_left heq]
  exact hrest

/-! ## Restoring -/

theorem restoreItem_targets {r : Restoring} {snapshot : Snapshot} {root : Loc} {name : String}
    {effect : TreeEffect} (h : effect ∈ (restoreItem r snapshot.tree root name).1) :
    ∃ rel, snapshot.tree (root ++ name :: rel) ≠ none ∧
      effect.target = some (root ++ name :: rel) := by
  unfold restoreItem at h
  split at h
  next mode hdir =>
    obtain ⟨rel, hrel, ht⟩ := copyTree_sound snapshot.tree r.scandir (fun _ => false) r.depth
      (root ++ [name]) (root ++ [name]) (fun rel _ t => snapshot.noLinks _ t) (by simp [hdir])
      effect h
    exact ⟨rel, by simpa using hrel, by simpa using ht⟩
  next content mode hfile => exact ⟨[], by simp [hfile], copyFile_target h⟩
  · cases h

theorem restoreItems_mem {r : Restoring} {tree : Files} {root : Loc} {names : List String}
    {effect : TreeEffect} (h : effect ∈ (restoreItems r tree root names).1) :
    ∃ name ∈ names, effect ∈ (restoreItem r tree root name).1 := by
  induction names with
  | nil => cases h
  | cons name names ih =>
    unfold restoreItems at h
    split at h
    next effects hitem =>
      rcases List.mem_append.mp h with hin | hin
      · exact ⟨name, by simp, by rw [hitem]; exact hin⟩
      · obtain ⟨other, hother, hin⟩ := ih hin
        exact ⟨other, by simp [hother], hin⟩
    next effects hitem => exact ⟨name, by simp, by rw [hitem]; exact h⟩

theorem restoreItems_ok {r : Restoring} {tree : Files} {root : Loc} {names : List String}
    (h : (restoreItems r tree root names).2 = true) :
    (restoreItems r tree root names).1 =
        names.flatMap (fun name => (restoreItem r tree root name).1) ∧
      ∀ name ∈ names, (restoreItem r tree root name).2 = true := by
  induction names with
  | nil => exact ⟨rfl, by simp⟩
  | cons name names ih =>
    unfold restoreItems at h ⊢
    split at h
    next effects hitem =>
      obtain ⟨heffects, hall⟩ := ih h
      simp only [hitem, heffects, List.flatMap_cons, List.mem_cons, forall_eq_or_imp]
      exact ⟨trivial, trivial, hall⟩
    next effects hitem => cases h

/-- The effects of a restore that returns. -/
theorem restoreBatchSnapshot_ok {r : Restoring} {files files' : Files} {root : Loc}
    {snapshot : Snapshot} (h : restoreBatchSnapshot r files root (some snapshot) = (files', none)) :
    ∃ names, names = (r.scandir root).filter (fun name => !isKept name) ∧
      (restoreItems r snapshot.tree root names).2 = true ∧
      files' = applyEffects
        ((((r.iterdir root).filter fun name => !isKept name).map fun name =>
            TreeEffect.removeTree (root ++ [name])) ++
          (restoreItems r snapshot.tree root names).1) files := by
  unfold restoreBatchSnapshot at h
  simp only at h
  split at h
  · cases h
  · split at h
    next hok =>
      cases h
      exact ⟨_, rfl, hok, rfl⟩
    · cases h

/-- The deletions of a restore leave nothing of what it manages. -/
theorem effectsOn_removals {files : Files} {root : Loc} {iterdir : Loc → List String}
    (htree : IsTree files root) (hiter : Lists files iterdir) {l : Loc} (hl : Managed root l) :
    effectsOn l (((iterdir root).filter fun name => !isKept name).map fun name =>
      TreeEffect.removeTree (root ++ [name])) (files l) = none := by
  obtain ⟨name, rel, hkept, rfl⟩ := hl
  have hstays : ∀ names : List String, effectsOn (root ++ name :: rel)
      (names.map fun n => TreeEffect.removeTree (root ++ [n])) none = none := by
    intro names
    induction names with
    | nil => rfl
    | cons n names ih =>
      rw [List.map_cons, effectsOn, List.foldl_cons, ← effectsOn]
      simpa [TreeEffect.on] using ih
  by_cases hname : name ∈ (iterdir root).filter fun n => !isKept n
  · obtain ⟨pre, post, hsplit⟩ := List.append_of_mem hname
    rw [hsplit, List.map_append, List.map_cons, effectsOn_append, effectsOn, List.foldl_cons,
      ← effectsOn]
    have hgone : ∀ e, TreeEffect.on (root ++ name :: rel)
        (.removeTree (root ++ [name])) e = none := by
      intro e
      have hp : root ++ [name] <+: root ++ name :: rel := ⟨rel, by simp⟩
      simp [TreeEffect.on, hp]
    rw [hgone]
    exact hstays post
  · have hnone : files (root ++ [name]) = none := by
      by_contra hne
      exact hname (List.mem_filter.mpr ⟨((hiter root).2 name).mpr hne, by simp [hkept]⟩)
    have hl : files (root ++ name :: rel) = none := by
      by_cases hnil : rel = []
      · subst hnil
        exact hnone
      · by_contra hne
        have hbelow : files ((root ++ [name]) ++ rel) ≠ none := by simpa using hne
        obtain ⟨m, hm⟩ := htree.below (List.prefix_append _ _) rel hnil hbelow
        rw [hnone] at hm
        cases hm
    rw [hl]
    exact hstays _

/-- A restore leaves no links in what it manages, and brings back only what the
snapshot holds. -/
theorem restore_sound {r : Restoring} {files files' : Files} {root : Loc} {snapshot : Snapshot}
    (htree : IsTree files root) (hiter : Lists files r.iterdir)
    (h : restoreBatchSnapshot r files root (some snapshot) = (files', none)) {l : Loc}
    (hl : Managed root l) :
    (∀ t, files' l ≠ some (.link t)) ∧ (snapshot.tree l = none → files' l = none) := by
  obtain ⟨names, -, -, rfl⟩ := restoreBatchSnapshot_ok h
  simp only [applyEffects, effectsOn_append, effectsOn_removals htree hiter hl]
  refine ⟨effectsOn_noLink l _ none (by simp), fun hnone => effectsOn_of_other none ?_⟩
  intro effect heffect
  obtain ⟨name, -, hin⟩ := restoreItems_mem heffect
  obtain ⟨rel, hrel, ht⟩ := restoreItem_targets hin
  refine ⟨_, ht, ?_⟩
  rintro rfl
  exact hrel hnone

/-- A restore brings back every file and directory of a snapshot that is a tree. -/
theorem restore_holds {r : Restoring} {files files' : Files} {root : Loc} {snapshot : Snapshot}
    (htree : IsTree files root) (hiter : Lists files r.iterdir)
    (hscan : Lists snapshot.tree r.scandir)
    (hparents : ∀ l name, Managed root l → snapshot.tree (l ++ [name]) ≠ none →
      ∃ mode, snapshot.tree l = some (.dir mode))
    (h : restoreBatchSnapshot r files root (some snapshot) = (files', none)) {l : Loc}
    (hl : Managed root l) : files' l = snapshot.tree l := by
  obtain ⟨-, hsound⟩ := restore_sound htree hiter h hl
  by_cases hentry : snapshot.tree l = none
  · rw [hentry, hsound hentry]
  obtain ⟨names, rfl, hok, rfl⟩ := restoreBatchSnapshot_ok h
  obtain ⟨heffects, hall⟩ := restoreItems_ok hok
  simp only [applyEffects, effectsOn_append, effectsOn_removals htree hiter hl]
  have htargets : ∀ effect ∈ (restoreItems r snapshot.tree root
      ((r.scandir root).filter fun name => !isKept name)).1, effect.target ≠ none := by
    intro effect heffect
    obtain ⟨name, -, hin⟩ := restoreItems_mem heffect
    obtain ⟨rel, -, ht⟩ := restoreItem_targets hin
    simp [ht]
  obtain ⟨name, rel, hkept, rfl⟩ := hl
  -- the snapshot is a tree from the top-level item down
  have htop : ∀ rest, rest ≠ [] → snapshot.tree ((root ++ [name]) ++ rest) ≠ none →
      ∃ mode, snapshot.tree (root ++ [name]) = some (.dir mode) := by
    intro rest
    induction rest using List.reverseRecOn with
    | nil => exact fun hne => absurd rfl hne
    | append_singleton rest last ih =>
      intro _ hne
      rw [← List.append_assoc] at hne
      obtain ⟨m, hm⟩ := hparents _ last ⟨name, rest, hkept, by simp⟩ hne
      by_cases hnil : rest = []
      · subst hnil
        exact ⟨m, by simpa using hm⟩
      · exact ih hnil (by rw [hm]; exact Option.some_ne_none _)
  have hchild : snapshot.tree (root ++ [name]) ≠ none := by
    by_cases hnil : rel = []
    · subst hnil
      exact hentry
    · obtain ⟨m, hm⟩ := htop rel hnil (by simpa using hentry)
      simp [hm]
  have hname : name ∈ (r.scandir root).filter fun n => !isKept n :=
    List.mem_filter.mpr ⟨((hscan root).2 name).mpr hchild, by simp [hkept]⟩
  have hlinkTree : ∀ t, snapshot.tree (root ++ name :: rel) ≠ some (.link t) :=
    snapshot.noLinks _
  rw [effectsOn_targeting none htargets, heffects,
    targeting_entries _ ((hscan root).1.filter _) (fun n _ effect heffect => by
      obtain ⟨rest, -, ht⟩ := restoreItem_targets heffect
      exact ⟨rest, ht⟩), if_pos hname]
  suffices hitem : targeting (root ++ name :: rel) (restoreItem r snapshot.tree root name).1 =
      entryEffects r.umask (root ++ name :: rel) (snapshot.tree (root ++ name :: rel)) by
    rw [hitem, effectsOn_entryEffects _ hlinkTree hentry]
  have hokName := hall name hname
  have hassoc : root ++ name :: rel = (root ++ [name]) ++ rel := by simp
  unfold restoreItem at hokName ⊢
  split
  next mode hdir =>
    have hsub : IsTree snapshot.tree (root ++ [name]) := by
      refine ⟨⟨mode, hdir⟩, ?_⟩
      rintro _ last ⟨rest, rfl⟩ hne
      exact hparents _ last ⟨name, rest, hkept, by simp⟩ hne
    rw [hdir] at hokName
    have hboth := copyTree_targeting r.umask (fun _ => false) hsub hscan r.depth
      (root ++ [name]) List.prefix_rfl rel ⟨mode, hdir⟩ (hassoc ▸ hentry) (hassoc ▸ hlinkTree)
    rw [hassoc]
    exact hboth.resolve_right fun hnot => hnot.2 ⟨hokName, fun _ _ => rfl⟩
  next content mode hfile =>
    have hnil : rel = [] := by
      by_contra hne
      obtain ⟨m, hm⟩ := htop rel hne (by simpa using hentry)
      rw [hfile] at hm
      cases hm
    subst hnil
    rw [hfile]
    exact targeting_of_all fun effect => copyFile_target
  next hdir hfile =>
    exfalso
    cases hc : snapshot.tree (root ++ [name]) with
    | none => exact hchild hc
    | some found =>
      cases found with
      | file content mode => exact hfile content mode hc
      | dir mode => exact hdir mode hc
      | link t => exact snapshot.noLinks _ t hc

/-- The copy of a plain tree holds what restores manage of it. -/
theorem copy_of_plain {c : Copying} {files : Files} {root : Loc} (htree : IsTree files root)
    (hlists : Lists files c.scandir)
    (hok : (copyTree c.umask files c.scandir isIgnored c.depth root root).2 = true)
    (hplain : Plain files root) {l : Loc} (hl : Managed root l) :
    effectsOn l (copyTree c.umask files c.scandir isIgnored c.depth root root).1 none =
      files l := by
  obtain ⟨name, rel, hkept, rfl⟩ := hl
  by_cases hentry : files (root ++ name :: rel) = none
  · rw [hentry]
    apply effectsOn_of_other
    intro effect heffect
    -- an effect on this location would copy an entry the tree does not have
    have hlinks : ∀ rest, Unignored isIgnored rest → ∀ t,
        files (root ++ rest) ≠ some (.link t) := by
      intro rest hrest t hlink
      cases rest with
      | nil =>
        obtain ⟨m, hm⟩ := htree.rootDir
        rw [List.append_nil, hm] at hlink
        cases hlink
      | cons top rest =>
        have htop : isKept top = false := by
          have hun := hrest top (by simp)
          simp only [isKept, Bool.or_eq_false_iff, decide_eq_false_iff_not]
          constructor
          · rintro rfl
            revert hun
            decide
          · rintro rfl
            revert hun
            decide
        exact (hplain top rest htop (by simp [hlink])).1 t hlink
    obtain ⟨m, hm⟩ := htree.rootDir
    obtain ⟨rest, hrest, ht⟩ := copyTree_sound files c.scandir isIgnored c.depth root root hlinks
      (by simp [hm]) effect heffect
    refine ⟨_, ht, fun heq => hrest ?_⟩
    rw [← heq, hentry]
  · obtain ⟨hlink, hun⟩ := hplain name rel hkept hentry
    have htargeting := (copyTree_targeting c.umask isIgnored htree hlists c.depth root
      List.prefix_rfl
      (name :: rel) htree.rootDir hentry hlink).resolve_right fun hnot => hnot.2 ⟨hok, hun⟩
    rw [effectsOn_targeting none copyTree_target_ne_none, htargeting,
      effectsOn_entryEffects _ hlink hentry]

/-- Saving and restoring is the identity on what restores manage exactly for
trees without links and without names that copies leave out. -/
theorem restore_save_iff {c : Copying} {files files' files'' : Files} {root : Loc}
    {snapshot : Snapshot} (htree : IsTree files root) (hlists : Lists files c.scandir)
    (hsave : saveBatchSnapshot c files root = .saved snapshot) {r : Restoring}
    (htree' : IsTree files' root) (hiter : Lists files' r.iterdir)
    (hscan : Lists snapshot.tree r.scandir)
    (hrestore : restoreBatchSnapshot r files' root (some snapshot) = (files'', none)) :
    (∀ l, Managed root l → files'' l = files l) ↔ Plain files root := by
  obtain ⟨hok, rfl⟩ := saveBatchSnapshot_saved hsave
  constructor
  · intro hsame name rel hkept hentry
    have hl : Managed root (root ++ name :: rel) := ⟨name, rel, hkept, rfl⟩
    obtain ⟨hlink, hsound⟩ := restore_sound htree' hiter hrestore hl
    refine ⟨fun t => by rw [← hsame _ hl]; exact hlink t, ?_⟩
    by_contra hign
    apply hentry
    rw [← hsame _ hl]
    apply hsound
    rw [withGit_managed _ _ _ hl]
    exact copy_ignored hign none
  · intro hplain
    have hcopy : ∀ l, Managed root l → (withGit root
        (copyTree c.umask files c.scandir isIgnored c.depth root root).1 c.gitMetadata).tree l =
          files l := by
      intro l hl
      rw [withGit_managed _ _ _ hl, copy_of_plain htree hlists hok hplain hl]
    intro l hl
    rw [restore_holds htree' hiter hscan ?_ hrestore hl, hcopy l hl]
    intro l' name hl' hne
    obtain ⟨top, rest, hkept, rfl⟩ := hl'
    rw [hcopy _ ⟨top, rest, hkept, rfl⟩]
    rw [hcopy _ ⟨top, rest ++ [name], hkept, by simp⟩] at hne
    exact htree.parents _ name (List.prefix_append _ _) hne

/-! ## Parts of copies -/

theorem copyTree_effects (files : Files) (scandir : Loc → List String) (ignored : String → Bool)
    (depth : Nat) (src dst : Loc) :
    (copyTree umask files scandir ignored (depth + 1) src dst).1 =
      [.makeDir dst] ++ ((scandir src).filter fun name => !ignored name).flatMap (fun name =>
        (copyEntry umask files
            (fun s d => copyTree umask files scandir ignored depth s d) src dst name).1) ++
        copyMode files src dst := by
  simp [copyTree, List.flatMap_map]

/-- Of a part of the effects of distinct entries only those of `name` reach below it. -/
theorem targeting_entries_take {copies : String → List TreeEffect} {dst : Loc}
    (names : List String) (hnodup : names.Nodup)
    (htargets : ∀ name ∈ names, ∀ effect ∈ copies name, ∃ rel,
      effect.target = some (dst ++ name :: rel)) {tail : List TreeEffect}
    (htail : ∀ effect ∈ tail, effect.target = some dst) (name : String) (k : Nat) :
    ∃ j, ∀ rel, targeting (dst ++ name :: rel) ((names.flatMap copies ++ tail).take k) =
      if name ∈ names then targeting (dst ++ name :: rel) ((copies name).take j) else [] := by
  induction names generalizing k with
  | nil =>
    refine ⟨0, fun rel => ?_⟩
    rw [if_neg List.not_mem_nil]
    apply targeting_of_other
    intro effect heffect
    exact ⟨dst, htail effect (List.mem_of_mem_take heffect), by simp⟩
  | cons first names ih =>
    obtain ⟨hfirst, hnodup'⟩ := List.nodup_cons.mp hnodup
    obtain ⟨j, hj⟩ := ih hnodup' (fun n hn => htargets n (List.mem_cons_of_mem _ hn))
      (k - (copies first).length)
    have hsplit : ∀ rel, targeting (dst ++ name :: rel)
        (((first :: names).flatMap copies ++ tail).take k) =
          targeting (dst ++ name :: rel) ((copies first).take k) ++
            if name ∈ names then targeting (dst ++ name :: rel) ((copies name).take j) else [] := by
      intro rel
      rw [List.flatMap_cons, List.append_assoc, List.take_append, targeting_append, hj]
    by_cases heq : name = first
    · subst heq
      refine ⟨k, fun rel => ?_⟩
      rw [hsplit, if_neg hfirst, if_pos List.mem_cons_self, List.append_nil]
    · refine ⟨j, fun rel => ?_⟩
      have hother : targeting (dst ++ name :: rel) ((copies first).take k) = [] := by
        apply targeting_of_other
        intro effect heffect
        obtain ⟨rest, ht⟩ := htargets first List.mem_cons_self effect
          (List.mem_of_mem_take heffect)
        exact ⟨_, ht, fun h => heq (List.cons.inj (List.append_cancel_left h)).1⟩
      rw [hsplit, hother, List.nil_append]
      simp [heq]

section Prefixes

variable {files : Files} {scandir : Loc → List String} {ignored : String → Bool}

theorem copyEntry_below {depth : Nat} {src dst : Loc} {name : String} {effect : TreeEffect}
    (hname : name ∈ (scandir src).filter fun name => !ignored name)
    (h : effect ∈ (copyEntry umask files
        (fun s d => copyTree umask files scandir ignored depth s d) src dst
      name).1) : ∃ rest, effect.target = some (dst ++ name :: rest) := by
  obtain ⟨rest, -, ht⟩ := copyEntry_targets (copyTree_targets files scandir ignored depth)
    (by simpa using (List.mem_filter.mp hname).2) h
  exact ⟨rest, ht⟩

/-- What a part of a copy does below one of its directory entries. -/
theorem copyTree_take_below (hnodup : ∀ l, (scandir l).Nodup) (depth : Nat) (src dst : Loc)
    (name : String) (k : Nat) :
    ∃ j, ∀ rel, targeting (dst ++ name :: rel)
        ((copyTree umask files scandir ignored (depth + 1) src dst).1.take k) =
      if name ∈ (scandir src).filter (fun name => !ignored name) then
        targeting (dst ++ name :: rel)
          ((copyEntry umask files
              (fun s d => copyTree umask files scandir ignored depth s d) src dst name).1.take
            j)
      else [] := by
  cases k with
  | zero => exact ⟨0, fun rel => by simp [targeting]⟩
  | succ k =>
    have hentries : ∀ name ∈ (scandir src).filter (fun name => !ignored name),
        ∀ effect ∈ (copyEntry umask files
            (fun s d => copyTree umask files scandir ignored depth s d) src dst
          name).1, ∃ rest, effect.target = some (dst ++ name :: rest) :=
      fun name hname effect heffect => copyEntry_below hname heffect
    obtain ⟨j, hj⟩ := targeting_entries_take _ ((hnodup src).filter _) hentries
      (fun effect => @copyMode_target files src dst effect) name k
    refine ⟨j, fun rel => ?_⟩
    have hfirst : ∀ effects, targeting (dst ++ name :: rel) (.makeDir dst :: effects) =
        targeting (dst ++ name :: rel) effects := by
      simp [targeting, TreeEffect.target]
    rw [copyTree_effects, List.append_assoc, List.singleton_append, List.take_succ_cons, hfirst, hj]

theorem take_target {effects : List TreeEffect} (h : ∀ effect ∈ effects, effect.target ≠ none)
    (k : Nat) : ∀ effect ∈ effects.take k, effect.target ≠ none :=
  fun effect heffect => h effect (List.mem_of_mem_take heffect)

/-- Effects that do not touch a directory, or change its permissions, leave it one. -/
theorem effectsOn_dir {l : Loc} {effects : List TreeEffect}
    (h : ∀ effect ∈ effects, (∃ mode, effect = .chmod l mode) ∨
      ∃ loc, effect.target = some loc ∧ l ≠ loc) (mode : Nat) :
    ∃ mode', effectsOn l effects (some (.dir mode)) = some (.dir mode') := by
  induction effects generalizing mode with
  | nil => exact ⟨mode, rfl⟩
  | cons effect effects ih =>
    have hrest := ih fun e he => h e (List.mem_cons_of_mem _ he)
    rw [effectsOn, List.foldl_cons, ← effectsOn]
    rcases h effect List.mem_cons_self with ⟨mode', rfl⟩ | hother
    · simpa [TreeEffect.on] using hrest mode'
    · have hone : effectsOn l [effect] (some (.dir mode)) = some (.dir mode) :=
        effectsOn_of_other _ (by simpa using hother)
      have hone : effect.on l (some (.dir mode)) = some (.dir mode) := hone
      rw [hone]
      exact hrest mode

/-- The top of a copy is a directory from its first effect on. -/
theorem copyTree_take_top (files : Files) (scandir : Loc → List String) (ignored : String → Bool)
    (depth : Nat) (src dst : Loc) (k : Nat) :
    ∃ mode, effectsOn dst
      ((copyTree umask files scandir ignored (depth + 1) src dst).1.take (k + 1))
      none = some (.dir mode) := by
  have hmade : (TreeEffect.makeDir dst).on dst none = some (.dir Files.newDirMode) := by
    simp [TreeEffect.on]
  rw [copyTree_effects, List.append_assoc, List.singleton_append, List.take_succ_cons, effectsOn,
    List.foldl_cons, ← effectsOn, hmade]
  refine effectsOn_dir (fun effect heffect => ?_) Files.newDirMode
  rcases List.mem_append.mp (List.mem_of_mem_take heffect) with hin | hin
  · obtain ⟨name, hname, hin⟩ := List.mem_flatMap.mp hin
    obtain ⟨rest, ht⟩ := copyEntry_below hname hin
    exact .inr ⟨_, ht, by simp⟩
  · unfold copyMode at hin
    split at hin
    next mode _ => exact .inl ⟨mode, List.mem_singleton.mp hin⟩
    · cases hin

/-- Every part of a copy has its files and directories below directories, links or not. -/
theorem copyTree_take_parents (hnodup : ∀ l, (scandir l).Nodup) (depth : Nat) (src dst : Loc)
    (rel : List String) (name : String) (k : Nat)
    (h : effectsOn (dst ++ rel ++ [name])
      ((copyTree umask files scandir ignored depth src dst).1.take k) none ≠ none) :
    ∃ mode, effectsOn (dst ++ rel)
      ((copyTree umask files scandir ignored depth src dst).1.take k) none =
      some (.dir mode) := by
  induction depth generalizing src dst rel k with
  | zero => exact absurd (by simp [copyTree, effectsOn]) h
  | succ depth ih =>
    cases rel with
    | nil =>
      rw [List.append_nil]
      cases k with
      | zero => exact absurd rfl h
      | succ k => exact copyTree_take_top files scandir ignored depth src dst k
    | cons first rel =>
      have hassoc : dst ++ first :: rel ++ [name] = dst ++ first :: (rel ++ [name]) := by simp
      obtain ⟨j, hj⟩ :=
        @copyTree_take_below umask files scandir ignored hnodup depth src dst first k
      have hparts := take_target
        (@copyTree_target_ne_none umask files scandir ignored (depth + 1) src dst) k
      rw [hassoc, effectsOn_targeting _ hparts, hj] at h
      rw [effectsOn_targeting _ hparts, hj]
      split at h
      next hin =>
        rw [if_pos hin]
        have hentry : ∀ effect ∈ (copyEntry umask files
            (fun s d => copyTree umask files scandir ignored depth s d) src dst first).1.take j,
            effect.target ≠ none := by
          intro effect heffect
          obtain ⟨rest, ht⟩ := copyEntry_below hin (List.mem_of_mem_take heffect)
          rw [ht]
          exact Option.some_ne_none _
        rw [← effectsOn_targeting _ hentry] at h ⊢
        have hdir : ∀ s, effectsOn (dst ++ first :: (rel ++ [name]))
            ((copyTree umask files scandir ignored depth s (dst ++ [first])).1.take j) none ≠ none →
            ∃ mode, effectsOn (dst ++ first :: rel)
              ((copyTree umask files scandir ignored depth s (dst ++ [first])).1.take j) none =
                some (.dir mode) := by
          intro s hs
          have hout : dst ++ first :: (rel ++ [name]) = (dst ++ [first]) ++ rel ++ [name] := by simp
          have hin : dst ++ first :: rel = (dst ++ [first]) ++ rel := by simp
          rw [hout] at hs
          rw [hin]
          exact ih s (dst ++ [first]) rel j hs
        have hfile : ∀ content mode, effectsOn (dst ++ first :: (rel ++ [name]))
            ((copyFile umask (dst ++ [first]) content mode).take j) none = none := by
          intro content mode
          apply effectsOn_of_other
          intro effect heffect
          refine ⟨_, copyFile_target (List.mem_of_mem_take heffect), fun heq => ?_⟩
          have hlen := congrArg List.length heq
          simp at hlen
        have hnone : effectsOn (dst ++ first :: (rel ++ [name])) (List.take j []) none = none := by
          rw [List.take_nil]
          rfl
        unfold copyEntry at h ⊢
        split at h
        next content mode _ => exact absurd (hfile content mode) h
        next mode hd => exact hdir _ h
        next target hlink =>
          split at h
          next loc hloc =>
            split at h
            next content mode _ => exact absurd (hfile content mode) h
            next mode hd => exact hdir _ h
            · exact absurd hnone h
          · exact absurd hnone h
        · exact absurd hnone h
      · exact absurd rfl h

/-- The top of a copy is a directory. -/
theorem copyTree_top (files : Files) (scandir : Loc → List String) (ignored : String → Bool)
    (depth : Nat) (src dst : Loc) :
    ∃ mode, effectsOn dst (copyTree umask files scandir ignored (depth + 1) src dst).1 none =
      some (.dir mode) := by
  obtain ⟨mode, hmode⟩ := copyTree_take_top files scandir ignored depth src dst
    (copyTree umask files scandir ignored (depth + 1) src dst).1.length
  rw [List.take_of_length_le (Nat.le_succ _)] at hmode
  exact ⟨mode, hmode⟩

/-- A copy has its files and directories below directories, links or not. -/
theorem copyTree_parents (hnodup : ∀ l, (scandir l).Nodup) (depth : Nat) (src dst : Loc)
    (rel : List String) (name : String)
    (h : effectsOn (dst ++ rel ++ [name])
      (copyTree umask files scandir ignored depth src dst).1 none ≠
      none) :
    ∃ mode, effectsOn (dst ++ rel) (copyTree umask files scandir ignored depth src dst).1 none =
      some (.dir mode) := by
  rw [← List.take_length (l := (copyTree umask files scandir ignored depth src dst).1)] at h ⊢
  exact copyTree_take_parents hnodup depth src dst rel name _ h

/-- What a copy does below one of its directory entries. -/
theorem copyTree_targeting_below (hnodup : ∀ l, (scandir l).Nodup) (depth : Nat) (src dst : Loc)
    (name : String) (rel : List String) :
    targeting (dst ++ name :: rel) (copyTree umask files scandir ignored (depth + 1) src dst).1 =
      if name ∈ (scandir src).filter (fun name => !ignored name) then
        targeting (dst ++ name :: rel)
          (copyEntry umask files
              (fun s d => copyTree umask files scandir ignored depth s d) src dst name).1
      else [] := by
  have hentries : ∀ name ∈ (scandir src).filter (fun name => !ignored name),
      ∀ effect ∈ (copyEntry umask files
          (fun s d => copyTree umask files scandir ignored depth s d) src dst
        name).1, ∃ rest, effect.target = some (dst ++ name :: rest) :=
    fun name hname effect heffect => copyEntry_below hname heffect
  have hfirst : targeting (dst ++ name :: rel) [.makeDir dst] = [] := by
    simp [targeting, TreeEffect.target]
  have hlast : targeting (dst ++ name :: rel) (copyMode files src dst) = [] :=
    targeting_of_other fun effect heffect => ⟨dst, copyMode_target heffect, by simp⟩
  rw [copyTree_effects, targeting_append, targeting_append, hfirst, hlast, List.nil_append,
    List.append_nil, targeting_entries _ ((hnodup src).filter _) hentries]

/-- A file is copied whole, unless an ignored name leads to it or it lies too deep. -/
theorem copyTree_file {root : Loc} (htree : IsTree files root) (hlists : Lists files scandir)
    (depth : Nat) {src : Loc} (dst : Loc) (hroot : root <+: src) (name : String)
    (rel : List String) {content : Content} {mode : Nat}
    (hfile : files (src ++ name :: rel) = some (.file content mode)) :
    Unignored ignored (name :: rel) ∧ rel.length < depth ∧
        targeting (dst ++ name :: rel) (copyTree umask files scandir ignored depth src dst).1 =
          copyFile umask (dst ++ name :: rel) content mode ∨
      ¬ (Unignored ignored (name :: rel) ∧ rel.length < depth) ∧
        targeting (dst ++ name :: rel) (copyTree umask files scandir ignored depth src dst).1 =
          [] := by
  induction depth generalizing src dst name rel with
  | zero => exact .inr ⟨fun h => absurd h.2 (Nat.not_lt_zero _), rfl⟩
  | succ depth ih =>
    have hassoc : src ++ name :: rel = (src ++ [name]) ++ rel := by simp
    have hentry : files ((src ++ [name]) ++ rel) ≠ none := by simp [← hassoc, hfile]
    rw [copyTree_targeting_below fun l => (hlists l).1]
    by_cases hign : ignored name = true
    · refine .inr ⟨fun h => ?_, by simp [hign]⟩
      rw [h.1 name List.mem_cons_self] at hign
      cases hign
    have hchild : files (src ++ [name]) ≠ none := by
      by_cases hnil : rel = []
      · subst hnil
        simpa using hentry
      · obtain ⟨m, hm⟩ := htree.below (hroot.trans (List.prefix_append _ _)) rel hnil hentry
        simp [hm]
    have hname : name ∈ (scandir src).filter fun name => !ignored name :=
      List.mem_filter.mpr ⟨((hlists src).2 name).mpr hchild, by simpa using hign⟩
    have hfirst : ∀ other ∈ [name], ignored other = false := by simpa using hign
    rw [if_pos hname]
    cases rel with
    | nil =>
      have hone : files (src ++ [name]) = some (.file content mode) := by simpa using hfile
      refine .inl ⟨hfirst, Nat.zero_lt_succ _, ?_⟩
      simp only [copyEntry, hone]
      exact targeting_of_all fun effect => copyFile_target
    | cons next rel =>
      obtain ⟨m, hm⟩ := htree.below (hroot.trans (List.prefix_append _ _)) (next :: rel)
        (List.cons_ne_nil _ _) hentry
      have hone : copyEntry umask files
          (fun s d => copyTree umask files scandir ignored depth s d) src dst
          name = copyTree umask files scandir ignored depth (src ++ [name]) (dst ++ [name]) := by
        simp [copyEntry, hm]
      have hdst : dst ++ name :: next :: rel = (dst ++ [name]) ++ next :: rel := by simp
      have hun : Unignored ignored (name :: next :: rel) ↔ Unignored ignored (next :: rel) := by
        simp [Unignored, hign]
      rw [hone, hdst, hun, List.length_cons, Nat.add_lt_add_iff_right]
      exact ih (dst ++ [name]) (hroot.trans (List.prefix_append _ _)) next rel (hassoc ▸ hfile)

end Prefixes

section Saved

variable {c : Copying} {files : Files} {root : Loc} {snapshot : Snapshot}

/-- What a snapshot holds of the part that restores manage is a tree. -/
theorem saved_parents (hlists : Lists files c.scandir)
    (hsave : saveBatchSnapshot c files root = .saved snapshot) {l : Loc} {name : String}
    (hl : Managed root l) (hentry : snapshot.tree (l ++ [name]) ≠ none) :
    ∃ mode, snapshot.tree l = some (.dir mode) := by
  obtain ⟨-, rfl⟩ := saveBatchSnapshot_saved hsave
  obtain ⟨top, rel, hkept, rfl⟩ := hl
  have hbelow : Managed root (root ++ top :: rel ++ [name]) := ⟨top, rel ++ [name], hkept, by simp⟩
  rw [withGit_managed _ _ _ hbelow] at hentry
  rw [withGit_managed _ _ _ ⟨top, rel, hkept, rfl⟩]
  exact copyTree_parents (fun l => (hlists l).1) c.depth root root (top :: rel) name hentry

/-- A workspace that holds what a snapshot does is plain. -/
theorem plain_of_saved (hsave : saveBatchSnapshot c files root = .saved snapshot) {files' : Files}
    (hsame : ∀ l, Managed root l → files' l = snapshot.tree l) : Plain files' root := by
  obtain ⟨-, rfl⟩ := saveBatchSnapshot_saved hsave
  intro name rel hkept hentry
  have hl : Managed root (root ++ name :: rel) := ⟨name, rel, hkept, rfl⟩
  rw [hsame _ hl] at hentry ⊢
  refine ⟨fun t => Snapshot.noLinks _ _ t, ?_⟩
  by_contra hign
  rw [withGit_managed _ _ _ hl] at hentry
  exact hentry (copy_ignored hign none)

/-- The copy of a plain workspace holds what the workspace does. -/
theorem saved_of_plain (htree : IsTree files root) (hlists : Lists files c.scandir)
    (hsave : saveBatchSnapshot c files root = .saved snapshot) (hplain : Plain files root) {l : Loc}
    (hl : Managed root l) : snapshot.tree l = files l := by
  obtain ⟨hok, rfl⟩ := saveBatchSnapshot_saved hsave
  rw [withGit_managed _ _ _ hl, copy_of_plain htree hlists hok hplain hl]

end Saved

end EvoCI
