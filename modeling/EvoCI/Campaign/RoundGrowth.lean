import EvoCI.Campaign.RoundProgress

/-! Whatever grows in every task and every merge grows from generation to generation, wherever the
command dies. -/

namespace EvoCI

open Library

variable {C : Type}

/-- Generations and branches have grown from what they were made of, and no generation is less than
it was on another disk. -/
structure CampaignDisk.Growing (le : C → C → Prop) (base d : CampaignDisk C) : Prop where
  contiguous : ∀ n, (d.generation (n + 1)).isSome = true → (d.generation n).isSome = true
  generations : ∀ n g g', d.generation n = some g → d.generation (n + 1) = some g' →
    le g.content g'.content
  branches : ∀ n taskId b, d.branch n taskId = some b →
    ∃ g, d.parent n = some g ∧ le g.content b.content
  kept : ∀ n g, base.generation n = some g →
    ∃ g', d.generation n = some g' ∧ le g.content g'.content

/-- Nothing that is done with the content of generations makes it less. -/
structure CampaignHost.Grows (host : CampaignHost C) (le : C → C → Prop) : Prop where
  refl : ∀ content, le content content
  trans : ∀ content content' content'', le content content' → le content' content'' →
    le content content''
  merge : ∀ content branches merged, (∀ branch ∈ branches, le content branch) →
    host.merge content branches = .ok merged → le content merged
  relocate : ∀ place content own, host.relocate place content = .ok own → le content own
  checkpoint : ∀ content, le content (host.checkpoint content)

/-- A task does not make its branch less, and what goes astray changes nothing that counts. -/
def RoundAction.Grows (le : C → C → Prop) : RoundAction C → Prop
  | .config _ => True
  | .work _ change stray => ∀ content,
      le content (change content) ∧ le content (stray content) ∧ le (stray content) content

section Frame

variable {host : CampaignHost C} {le : C → C → Prop} {base d : CampaignDisk C}

namespace CampaignDisk.Growing

theorem setRound (h : Growing le base d) {n : Nat} {r : RoundDirectory C}
    (hdelta : r.delta = (d.round n).delta ∨ r.delta = some ((d.round n).delta.getD [])) :
    Growing le base (d.setRound n r) :=
  ⟨h.contiguous, h.generations,
    fun k taskId b hb => h.branches k taskId b (branch_of_setRound hdelta hb), h.kept⟩

theorem setMetadata (h : Growing le base d) (n : Nat) (metadata : RoundMetadata) :
    Growing le base (d.setMetadata n metadata) := h.setRound (.inl rfl)

theorem setStatus (h : Growing le base d) (n : Nat) (status : RoundStatus) :
    Growing le base (d.setStatus n status) := h.setRound (.inl rfl)

theorem setCampaign (h : Growing le base d) (c : CampaignMetadata) :
    Growing le base (d.setCampaign c) := ⟨h.contiguous, h.generations, h.branches, h.kept⟩

theorem setBranch (h : Growing le base d) {n : Nat} {taskId : String} {b : Branch C}
    (hb : ∃ g, d.parent n = some g ∧ le g.content b.content) :
    Growing le base (d.setBranch n taskId b) := by
  refine ⟨h.contiguous, h.generations, fun k other b' hb' => ?_, h.kept⟩
  rw [branch_setBranch] at hb'
  split at hb'
  · next heq =>
    cases hb'
    rw [heq.1]
    exact hb
  · exact h.branches k other b' hb'

/-- The next generation has grown from its parent, and nothing is there that has grown from it. -/
theorem publish (h : Growing le base d) {n : Nat} (hfree : d.generation n = none)
    {g : Generation C} (hg : n = 0 ∨ ∃ g', d.parent n = some g' ∧ le g'.content g.content) :
    Growing le base (d.setGeneration n g) := by
  have hbeyond : d.generation (n + 1) = none := by
    cases hthere : d.generation (n + 1) with
    | none => rfl
    | some g' =>
      have hn := h.contiguous n (by rw [hthere]; rfl)
      rw [hfree] at hn
      cases hn
  refine ⟨fun k hk => ?_, fun k g' g'' hk hk' => ?_, fun k taskId b hb => ?_, fun k g' hk => ?_⟩
  · rw [generation_setGeneration] at hk ⊢
    split
    · rfl
    · split at hk
      · next hkn =>
        rcases hg with rfl | ⟨g', hparent, -⟩
        · cases hkn
        · subst hkn
          exact Option.isSome_iff_exists.mpr ⟨g', hparent⟩
      · exact h.contiguous k hk
  · rw [generation_setGeneration] at hk hk'
    split at hk'
    · next hkn =>
      cases hk'
      rcases hg with rfl | ⟨old, hparent, hle⟩
      · cases hkn
      · subst hkn
        rw [if_neg (by omega)] at hk
        obtain rfl : old = g' := Option.some.inj (Eq.trans (Eq.symm hparent) hk)
        exact hle
    · split at hk
      · next hkn =>
        subst hkn
        rw [hbeyond] at hk'
        cases hk'
      · exact h.generations k g' g'' hk hk'
  · obtain ⟨g', hparent, hle⟩ := h.branches k taskId b hb
    refine ⟨g', ?_, hle⟩
    cases k with
    | zero => cases hparent
    | succ k =>
      change (d.setGeneration n g).generation k = some g'
      have hthere : d.generation k = some g' := hparent
      rw [generation_setGeneration, if_neg]
      · exact hthere
      · rintro rfl
        rw [hfree] at hthere
        cases hthere
  · obtain ⟨later, hlater, hle⟩ := h.kept k g' hk
    refine ⟨later, ?_, hle⟩
    rw [generation_setGeneration, if_neg]
    · exact hlater
    · rintro rfl
      rw [hfree] at hlater
      cases hlater

/-- A generation that is written to as if nothing had been written. -/
theorem rewrite (hgrows : host.Grows le) (h : Growing le base d) {n : Nat} {g g' : Generation C}
    (hg : d.generation n = some g) (hup : le g.content g'.content)
    (hdown : le g'.content g.content) : Growing le base (d.setGeneration n g') := by
  have hnew : ∀ k old, d.generation k = some old →
      ∃ later, (d.setGeneration n g').generation k = some later ∧ le old.content later.content ∧
        le later.content old.content := by
    intro k old hold
    rw [generation_setGeneration]
    split
    · next hkn =>
      rw [hkn, hg] at hold
      cases hold
      exact ⟨g', rfl, hup, hdown⟩
    · exact ⟨old, hold, hgrows.refl _, hgrows.refl _⟩
  have hold : ∀ k later, (d.setGeneration n g').generation k = some later →
      ∃ old, d.generation k = some old ∧ le old.content later.content ∧
        le later.content old.content := by
    intro k later hlater
    have hthere : (d.generation k).isSome = true := by
      rw [generation_setGeneration] at hlater
      split at hlater
      · next hkn =>
        rw [hkn, hg]
        rfl
      · rw [hlater]
        rfl
    obtain ⟨old, hold⟩ := Option.isSome_iff_exists.mp hthere
    obtain ⟨later', hlater', hle⟩ := hnew k old hold
    obtain rfl : later = later' := Option.some.inj (hlater.symm.trans hlater')
    exact ⟨old, hold, hle⟩
  refine ⟨fun k hk => ?_, fun k later later' hk hk' => ?_, fun k taskId b hb => ?_,
    fun k first hk => ?_⟩
  · obtain ⟨later, hlater⟩ := Option.isSome_iff_exists.mp hk
    obtain ⟨old, hold, -⟩ := hold (k + 1) later hlater
    obtain ⟨before, hbefore⟩ := Option.isSome_iff_exists.mp
      (h.contiguous k (Option.isSome_iff_exists.mpr ⟨old, hold⟩))
    obtain ⟨after, hafter, -⟩ := hnew k before hbefore
    exact Option.isSome_iff_exists.mpr ⟨after, hafter⟩
  · obtain ⟨old, hold₁, -, hdown₁⟩ := hold k later hk
    obtain ⟨old', hold₂, hup₂, -⟩ := hold (k + 1) later' hk'
    exact hgrows.trans _ _ _ hdown₁ (hgrows.trans _ _ _ (h.generations k old old' hold₁ hold₂) hup₂)
  · obtain ⟨old, hparent, hle⟩ := h.branches k taskId b hb
    cases k with
    | zero => cases hparent
    | succ k =>
      obtain ⟨later, hlater, -, hdown'⟩ := hnew k old hparent
      exact ⟨later, hlater, hgrows.trans _ _ _ hdown' hle⟩
  · obtain ⟨old, hthere, hle⟩ := h.kept k first hk
    obtain ⟨later, hlater, hup', -⟩ := hnew k old hthere
    exact ⟨later, hlater, hgrows.trans _ _ _ hle hup'⟩

end CampaignDisk.Growing

theorem nextContent_grows (hgrows : host.Grows le)
    (h : CampaignDisk.Growing le base d) {n : Nat} {content : C}
    (hcontent : nextContent host n d = .ok content) :
    ∃ g, d.parent n = some g ∧ le g.content content := by
  cases hparent : d.parent n with
  | none =>
    simp only [nextContent, hparent] at hcontent
    cases hcontent
  | some g =>
    refine ⟨g, rfl, ?_⟩
    cases htasks : mergedTasks d n with
    | error e =>
      simp only [nextContent, hparent, htasks] at hcontent
      cases hcontent
    | ok taskIds =>
      cases hmerged : host.merge g.content
          (taskIds.filterMap fun taskId => (d.branch n taskId).map Branch.content) with
      | error e =>
        simp only [nextContent, hparent, htasks, hmerged] at hcontent
        cases hcontent
      | ok merged =>
        cases hown : host.relocate (.generation n) merged with
        | error e =>
          simp only [nextContent, hparent, htasks, hmerged, hown] at hcontent
          cases hcontent
        | ok own =>
          simp only [nextContent, hparent, htasks, hmerged, hown] at hcontent
          cases hcontent
          have hmerge : le g.content merged := by
            refine hgrows.merge _ _ _ (fun branch hbranch => ?_) hmerged
            obtain ⟨taskId, -, hmap⟩ := List.mem_filterMap.mp hbranch
            obtain ⟨b, hb, rfl⟩ := Option.map_eq_some_iff.mp hmap
            obtain ⟨g', hg', hle⟩ := h.branches n taskId b hb
            obtain rfl : g = g' := Option.some.inj (hparent.symm.trans hg')
            exact hle
          exact hgrows.trans _ _ _ hmerge (hgrows.trans _ _ _ (hgrows.relocate _ _ _ hown)
            (hgrows.checkpoint own))

end Frame

section Keeps

variable {host : CampaignHost C} {le : C → C → Prop} {m : CampaignManager} {i : RoundInput}
  {base d : CampaignDisk C}

open CampaignDisk (Growing)

theorem grows_initializeCampaign (h : Growing le base d) :
    Durable.Stays (Growing le base) (initializeCampaign host m) d := by
  refine Durable.stays_look_bind h fun campaign _ => ?_
  cases campaign with
  | some metadata =>
    simp only
    split
    · exact Durable.stays_raise _ h
    · exact Durable.stays_pure _ h
  | none =>
    refine Durable.stays_bind (Durable.stays_effect h fun _ t ht => ?_) fun _ _ h =>
      stays_writes_bind h (h.setCampaign _) (Durable.stays_pure _ (h.setCampaign _))
    cases hzero : d.generation 0 with
    | some g => simp [hzero] at ht
    | none =>
      simp only [hzero, Except.ok.injEq, Prod.mk.injEq, true_and] at ht
      subst ht
      exact h.publish hzero (.inl rfl)

theorem grows_prepareRound (h : Growing le base d) :
    Durable.Stays (Growing le base) (prepareRound host m i) d := by
  refine Durable.stays_look_bind h fun _ _ => Durable.stays_look_bind h fun _ _ => ?_
  refine Durable.stays_bind (grows_initializeCampaign h) fun c _ h => ?_
  generalize (initializeCampaign host m d).state = t at h
  refine Durable.stays_look_bind h fun _ _ => Durable.stays_look_bind h fun metadata _ => ?_
  cases metadata with
  | some existing =>
    simp only [resumeRound]
    split
    · exact Durable.stays_raise _ h
    · split
      · exact Durable.stays_raise _ h
      · split
        · exact stays_writes_bind h (h.setMetadata _ _) (Durable.stays_pure _ (h.setMetadata _ _))
        · exact Durable.stays_pure _ h
  | none =>
    refine Durable.stays_look_bind h fun warned _ => ?_
    obtain ⟨warnings, pairs⟩ := warned
    have hmade : Growing le base (t.setRound i.round { t.round i.round with
        delta := some ((t.round i.round).delta.getD []) }) := h.setRound (.inr rfl)
    have hmetadata := hmade.setMetadata i.round (newRound m i warnings)
    have hstatus := hmetadata.setStatus i.round ⟨"running", []⟩
    exact stays_writes_bind h hmade (stays_writes_bind hmade hmetadata
      (stays_writes_bind hmetadata hstatus (stays_writes_bind hstatus (hstatus.setCampaign _)
        (Durable.stays_pure _ (hstatus.setCampaign _)))))

theorem grows_taskConfig {round : Nat} {taskId : String} (hgrows : host.Grows le)
    (h : Growing le base d) :
    Durable.Stays (Growing le base) (taskConfig host round taskId) d := by
  refine Durable.stays_look_bind h fun _ _ => Durable.stays_look_bind h fun branch _ => ?_
  cases branch with
  | some b => exact Durable.stays_pure _ h
  | none =>
    refine Durable.stays_look_bind h fun content hcontent => ?_
    obtain ⟨g, hparent, rfl⟩ := branchSource_ok hcontent
    have hplaced : Growing le base (d.setBranch round taskId ⟨g.content, false⟩) :=
      h.setBranch ⟨g, hparent, hgrows.refl g.content⟩
    refine stays_writes_bind h hplaced (Durable.stays_effect hplaced fun _ t ht => ?_)
    cases hown : host.relocate (.branch round taskId) g.content with
    | error e =>
      rw [hown] at ht
      cases ht
    | ok own =>
      rw [hown] at ht
      cases ht
      exact hplaced.setBranch ⟨g, hparent, hgrows.relocate _ _ _ hown⟩

theorem CampaignDisk.Growing.worked (hgrows : host.Grows le) (h : Growing le base d) (round : Nat)
    (taskId : String) {change stray : C → C} (hwork : ∀ content, le content (change content) ∧
      le content (stray content) ∧ le (stray content) content) :
    Growing le base (d.worked round taskId change stray) := by
  unfold CampaignDisk.worked
  split
  · exact h
  · next b hb =>
    obtain ⟨g, hparent, hle⟩ := h.branches round taskId b hb
    have hchanged : Growing le base
        (d.setBranch round taskId { b with content := change b.content }) :=
      h.setBranch ⟨g, hparent, hgrows.trans _ _ _ hle (hwork b.content).1⟩
    simp only
    split
    · next n g' _ hg' =>
      exact hchanged.rewrite hgrows (n := n) hg' (hwork g'.content).2.1 (hwork g'.content).2.2
    · exact hchanged

theorem grows_performTasks {round : Nat} (hgrows : host.Grows le) {actions : List (RoundAction C)}
    (hactions : ∀ action ∈ actions, action.Grows le) (h : Growing le base d) :
    Durable.Stays (Growing le base) (performTasks host round actions) d := by
  induction actions generalizing d with
  | nil => exact Durable.stays_pure _ h
  | cons action actions ih =>
    have hrest := fun other hother => hactions other (List.mem_cons_of_mem action hother)
    refine Durable.stays_bind ?_ fun _ _ h => ih hrest h
    have haction := hactions action List.mem_cons_self
    cases action with
    | config taskId =>
      exact Durable.stays_bind (Durable.stays_attempt (grows_taskConfig hgrows h))
        fun _ _ h => Durable.stays_pure _ h
    | work taskId change stray => exact stays_writes h (h.worked hgrows round taskId haction)

theorem grows_finalizeRound {round : Nat} {results : List TaskResult} (hgrows : host.Grows le)
    (h : Growing le base d) :
    Durable.Stays (Growing le base) (finalizeRound host round results) d := by
  refine Durable.stays_look_bind h fun metadata _ => Durable.stays_look_bind h fun _ _ => ?_
  have hnote : Durable.Stays (Growing le base) (noteErrors round metadata results) d := by
    unfold noteErrors
    split
    · exact stays_writes_bind h (h.setMetadata _ _) (Durable.stays_pure _ (h.setMetadata _ _))
    · exact Durable.stays_pure _ h
  refine Durable.stays_bind hnote fun metadata _ h => ?_
  generalize (noteErrors round _ results d).state = t at h
  refine Durable.stays_look_bind h fun generation hgeneration => ?_
  obtain rfl : t.generation round = generation := Except.ok.inj hgeneration
  cases hfree : t.generation round with
  | some destination =>
    simp only
    split
    · exact Durable.stays_pure _ h
    · exact Durable.stays_raise _ h
  | none =>
    refine Durable.stays_look_bind h fun content hcontent => ?_
    cases metadata with
    | none => exact Durable.stays_raise _ h
    | some metadata =>
      have hpublished := h.publish hfree (g := nextGeneration host round metadata content)
        (.inr (nextContent_grows hgrows h hcontent))
      have hcompleted := hpublished.setMetadata round { metadata with status := "complete" }
      have hstatus := hcompleted.setStatus round ⟨"complete", sortedTexts metadata.taskIds⟩
      refine stays_writes_bind h hpublished (stays_writes_bind hpublished hcompleted
        (stays_writes_bind hcompleted hstatus ?_))
      refine Durable.stays_look_bind hstatus fun campaign _ => Durable.stays_look_bind hstatus
        fun _ _ => Durable.stays_look_bind hstatus fun _ _ => stays_writes_bind hstatus hstatus ?_
      exact stays_writes_bind hstatus (hstatus.setCampaign campaign)
        (stays_writes (hstatus.setCampaign campaign) (hstatus.setCampaign campaign))

theorem grows_benchmarkRun (hgrows : host.Grows le) (i : RoundCommand C)
    (htasks : ∀ action ∈ i.tasks, action.Grows le) (h : Growing le base d) :
    Durable.Stays (Growing le base) (benchmarkRun host i) d :=
  Durable.stays_bind (grows_prepareRound h) fun _ _ h =>
    Durable.stays_bind (grows_performTasks hgrows htasks h) fun _ _ h =>
      grows_finalizeRound hgrows h

end Keeps

section Histories

variable {host : CampaignHost C} {le : C → C → Prop}

open CampaignDisk (Growing)

theorem behind_growing (hgrows : host.Grows le) {base d : CampaignDisk C}
    {more : List (RoundCommand C)} (htasks : ∀ i ∈ more, ∀ action ∈ i.tasks, action.Grows le)
    (h : Growing le base d) :
    Growing le base (Durable.behind (benchmarkRun host) RoundCommand.crash d more) := by
  induction more generalizing d with
  | nil => exact h
  | cons i more ih =>
    exact ih (fun j hj => htasks j (List.mem_cons_of_mem i hj))
      ((grows_benchmarkRun hgrows i (htasks i List.mem_cons_self) h).leaves h i.crash)

theorem CampaignDisk.Growing.chain (hgrows : host.Grows le) {base d : CampaignDisk C}
    (h : Growing le base d) {k n : Nat} (hk : k ≤ n) {g g' : Generation C}
    (hg : d.generation k = some g) (hg' : d.generation n = some g') : le g.content g'.content := by
  induction n generalizing g' with
  | zero =>
    obtain rfl := Nat.le_zero.mp hk
    obtain rfl : g = g' := Option.some.inj (hg.symm.trans hg')
    exact hgrows.refl _
  | succ n ih =>
    rcases Nat.le_succ_iff.mp hk with hk | rfl
    · obtain ⟨parent, hparent⟩ := Option.isSome_iff_exists.mp
        (h.contiguous n (Option.isSome_iff_exists.mpr ⟨g', hg'⟩))
      exact hgrows.trans _ _ _ (ih hk hparent) (h.generations n parent g' hparent hg')
    · obtain rfl : g = g' := Option.some.inj (hg.symm.trans hg')
      exact hgrows.refl _

/-- A generation is at no time less than it or an earlier one was at any earlier time. -/
theorem generations_grow (hgrows : host.Grows le) {history more : List (RoundCommand C)}
    (htasks : ∀ i ∈ history ++ more, ∀ action ∈ i.tasks, action.Grows le) {k n : Nat} (hk : k ≤ n)
    {g g' : Generation C} (hg : (campaignAfter host history).generation k = some g)
    (hg' : (campaignAfter host (history ++ more)).generation n = some g') :
    le g.content g'.content := by
  have hnothing : Growing le {} ({} : CampaignDisk C) := ⟨nofun, nofun, nofun, nofun⟩
  have hbefore := behind_growing hgrows
    (fun i hi => htasks i (List.mem_append_left more hi)) hnothing
  have hstart : Growing le (campaignAfter host history) (campaignAfter host history) :=
    ⟨hbefore.contiguous, hbefore.generations, hbefore.branches,
      fun _ g hg => ⟨g, hg, hgrows.refl g.content⟩⟩
  have hafter := behind_growing hgrows
    (fun i hi => htasks i (List.mem_append_right history hi)) hstart
  rw [campaignAfter, Durable.behind_append] at hg'
  obtain ⟨later, hlater, hle⟩ := hafter.kept k g hg
  exact hgrows.trans _ _ _ hle (hafter.chain hgrows hk hlater hg')

end Histories

end EvoCI
