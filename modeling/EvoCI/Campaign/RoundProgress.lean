import EvoCI.Campaign.RoundCrash

/-! What the generations of a campaign hold behind crashes, and when its next round can be run to
the end. -/

namespace EvoCI

open Library

variable {C : Type}

/-! ## Contents -/

/-- Generations hold what they were published with, and a round that is begun has its place for
branches and was begun with ids that are accepted. -/
structure CampaignDisk.Intact (host : CampaignHost C) (d : CampaignDisk C) : Prop where
  hashes : ∀ n g, d.generation n = some g → g.record.contentSha256 = host.hash g.content
  made : ∀ n, (d.round n).metadata.isSome = true → (d.round n).delta.isSome = true
  accepted : ∀ n metadata, (d.round n).metadata = some metadata →
    metadata.taskIds.find? unsafeTaskId = none

/-- No branch records the packages of the generation it was copied from. -/
def CampaignDisk.Owned (d : CampaignDisk C) : Prop :=
  ∀ n taskId b, d.branch n taskId = some b → b.own = true

/-- The generations of another disk are all there. -/
def CampaignDisk.Holds (d base : CampaignDisk C) : Prop :=
  ∀ n g, base.generation n = some g → d.generation n = some g

/-- The packages of a content are where they can be recorded. -/
def CampaignHost.Movable (host : CampaignHost C) (content : C) : Prop :=
  ∀ place, ∃ own, host.relocate place content = .ok own

/-- What was relocated can be relocated again. -/
structure CampaignHost.Relocates (host : CampaignHost C) : Prop where
  empty : host.Movable host.empty
  again : ∀ place content own, host.relocate place content = .ok own →
    host.Movable (host.checkpoint own)

def CampaignDisk.Movable (d : CampaignDisk C) (host : CampaignHost C) : Prop :=
  ∀ n g, d.generation n = some g → host.Movable g.content

/-- Behind this effect a branch records the packages of its generation. -/
def CampaignStep.strays : CampaignStep → Bool
  | .placeBranch => true
  | _ => false

/-- Contents are kept, and branches own their packages but behind their placing. -/
abbrev KeepsContents {α : Type} (host : CampaignHost C) (base : CampaignDisk C)
    (m : CampaignProgram C α) (d : CampaignDisk C) : Prop :=
  Durable.Steady (fun d => d.Intact host ∧ d.Holds base ∧ d.Movable host) (fun d => ¬ d.Owned)
    CampaignStep.strays False m d

section Frame

variable {host : CampaignHost C} {d base : CampaignDisk C}

theorem branch_setRound (n k : Nat) (r : RoundDirectory C) (taskId : String) :
    (d.setRound n r).branch k taskId =
      if k = n then r.delta.bind fun delta => delta.get? taskId else d.branch k taskId := by
  rw [CampaignDisk.branch, round_setRound]
  split <;> rfl

theorem branch_setBranch (n k : Nat) (taskId other : String) (b : Branch C) :
    (d.setBranch n taskId b).branch k other =
      if k = n ∧ other = taskId then some b else d.branch k other := by
  rw [CampaignDisk.setBranch, branch_setRound]
  by_cases hk : k = n
  · subst hk
    rw [if_pos rfl, Option.bind_some, Dict.get?_set]
    by_cases hother : other = taskId
    · rw [if_pos hother, if_pos ⟨rfl, hother⟩]
    · rw [if_neg hother, if_neg fun h => hother h.2, CampaignDisk.branch]
      cases (d.round k).delta <;> rfl
  · rw [if_neg hk, if_neg fun h => hk h.1]

theorem CampaignDisk.Intact.setRound (h : d.Intact host) {n : Nat} {r : RoundDirectory C}
    (hmade : r.metadata.isSome = true → r.delta.isSome = true)
    (haccepted : ∀ metadata, r.metadata = some metadata →
      metadata.taskIds.find? unsafeTaskId = none) : (d.setRound n r).Intact host := by
  refine ⟨fun k g hg => h.hashes k g hg, fun k hk => ?_, fun k metadata hk => ?_⟩
  · rw [round_setRound] at hk ⊢
    split
    · next hkn =>
      rw [if_pos hkn] at hk
      exact hmade hk
    · next hkn =>
      rw [if_neg hkn] at hk
      exact h.made k hk
  · rw [round_setRound] at hk
    split at hk
    · exact haccepted metadata hk
    · exact h.accepted k metadata hk

theorem CampaignDisk.Intact.setBranch (h : d.Intact host) (n : Nat) (taskId : String)
    (b : Branch C) :
    (d.setBranch n taskId b).Intact host := h.setRound (fun _ => rfl) (h.accepted n)

theorem CampaignDisk.Intact.setGeneration (h : d.Intact host) (n : Nat) {g : Generation C}
    (hg : g.record.contentSha256 = host.hash g.content) :
    (d.setGeneration n g).Intact host := by
  refine ⟨fun k g' hk => ?_, h.made, h.accepted⟩
  rw [generation_setGeneration] at hk
  split at hk
  · cases hk
    exact hg
  · exact h.hashes k g' hk

theorem CampaignDisk.Holds.setGeneration (h : d.Holds base) {n : Nat}
    (hfree : d.generation n = none) (g : Generation C) : (d.setGeneration n g).Holds base := by
  intro k g' hk
  have hthere := h k g' hk
  rw [generation_setGeneration]
  split
  · next hkn =>
    rw [hkn, hfree] at hthere
    cases hthere
  · exact hthere

/-- A round that is written anew with its branches, or with their empty place. -/
theorem branch_of_setRound {n : Nat} {r : RoundDirectory C}
    (hdelta : r.delta = (d.round n).delta ∨ r.delta = some ((d.round n).delta.getD []))
    {k : Nat} {taskId : String} {b : Branch C} (hb : (d.setRound n r).branch k taskId = some b) :
    d.branch k taskId = some b := by
  rw [branch_setRound] at hb
  split at hb
  · next hkn =>
    subst hkn
    rw [CampaignDisk.branch]
    rcases hdelta with hdelta | hdelta
    · rwa [← hdelta]
    · rw [hdelta] at hb
      cases hold : (d.round k).delta with
      | none =>
        rw [hold] at hb
        cases hb
      | some delta =>
        rw [hold] at hb
        exact hb
  · exact hb

theorem CampaignDisk.Owned.setRound (h : d.Owned) {n : Nat} {r : RoundDirectory C}
    (hdelta : r.delta = (d.round n).delta ∨ r.delta = some ((d.round n).delta.getD [])) :
    (d.setRound n r).Owned := fun k taskId b hb => h k taskId b (branch_of_setRound hdelta hb)

theorem CampaignDisk.Owned.setBranch (h : d.Owned) (n : Nat) (taskId : String) {b : Branch C}
    (hown : b.own = true) : (d.setBranch n taskId b).Owned := by
  intro k other b' hb
  rw [branch_setBranch] at hb
  split at hb
  · cases hb
    exact hown
  · exact h k other b' hb

theorem CampaignDisk.Movable.setGeneration (h : d.Movable host) (n : Nat) {g : Generation C}
    (hg : host.Movable g.content) : (d.setGeneration n g).Movable host := by
  intro k g' hk
  rw [generation_setGeneration] at hk
  split at hk
  · cases hk
    exact hg
  · exact h k g' hk

theorem CampaignDisk.Movable.parent (h : d.Movable host) {n : Nat} {g : Generation C}
    (hg : d.parent n = some g) : host.Movable g.content := by
  cases n with
  | zero => cases hg
  | succ n => exact h n g hg

theorem branchSource_ok {round : Nat} {content : C} (h : branchSource round d = .ok content) :
    ∃ g, d.parent round = some g ∧ g.content = content := by
  unfold branchSource at h
  split at h
  · cases h
  · next g hg =>
    split at h
    · cases h
    · exact ⟨g, hg, Except.ok.inj h⟩

/-- The next content was relocated. -/
theorem nextContent_relocated {n : Nat} {content : C} (h : nextContent host n d = .ok content) :
    ∃ merged own, host.relocate (.generation n) merged = .ok own ∧
      content = host.checkpoint own := by
  unfold nextContent at h
  split at h
  · cases h
  · split at h
    · cases h
    · split at h
      · cases h
      · next merged _ =>
        cases hown : host.relocate (.generation n) merged with
        | error e =>
          rw [hown] at h
          cases h
        | ok own =>
          rw [hown] at h
          cases h
          exact ⟨merged, own, hown, rfl⟩

end Frame

section Keeps

variable {host : CampaignHost C} {m : CampaignManager} {i : RoundInput}
  {d base : CampaignDisk C} {c : CampaignMetadata}

/-- The disk at a place where no branch strays. -/
structure CampaignDisk.Sound (d : CampaignDisk C) (host : CampaignHost C)
    (base : CampaignDisk C) : Prop where
  intact : d.Intact host
  holds : d.Holds base
  movable : d.Movable host
  owned : d.Owned

theorem CampaignDisk.Sound.inv (h : d.Sound host base) :
    d.Intact host ∧ d.Holds base ∧ d.Movable host := ⟨h.intact, h.holds, h.movable⟩

theorem CampaignDisk.Sound.owns (h : d.Sound host base) : ¬ d.Owned ↔ False := by simp [h.owned]

theorem sound_of_steady {t : CampaignDisk C}
    (hinv : t.Intact host ∧ t.Holds base ∧ t.Movable host) (howned : ¬ t.Owned ↔ False) :
    t.Sound host base :=
  ⟨hinv.1, hinv.2.1, hinv.2.2, not_not.mp (not_iff_not.mpr howned |>.mpr (fun h => h))⟩

theorem contents_pure {α : Type} (a : α) (h : d.Sound host base) :
    KeepsContents host base (pure a : CampaignProgram C α) d :=
  Durable.steady_pure a h.inv h.owns

theorem contents_raise {α : Type} (e : Raised) (h : d.Sound host base) :
    KeepsContents host base (Durable.raise e : CampaignProgram C α) d :=
  Durable.steady_raise e h.inv h.owns

theorem contents_look_bind {α β : Type} {f : CampaignDisk C → Except Raised α}
    {rest : α → CampaignProgram C β} (h : d.Sound host base)
    (hrest : ∀ a, f d = .ok a → KeepsContents host base (rest a) d) :
    KeepsContents host base (Durable.look f >>= rest) d :=
  Durable.steady_look_bind h.inv (fun _ _ => h.owns) hrest

theorem contents_writes {step : CampaignStep} {f : CampaignDisk C → CampaignDisk C}
    (h : d.Sound host base) (hstep : step.strays = false) (hf : (f d).Sound host base) :
    KeepsContents host base (writes step f) d := by
  refine Durable.steady_effect h.inv h.owns hstep fun _ t ht => ?_
  cases ht
  exact ⟨hf.inv, by simp [hf.owned, h.owned]⟩

theorem contents_writes_bind {α : Type} {step : CampaignStep}
    {f : CampaignDisk C → CampaignDisk C} {rest : Unit → CampaignProgram C α}
    (h : d.Sound host base) (hstep : step.strays = false) (hf : (f d).Sound host base)
    (hrest : KeepsContents host base (rest ()) (f d)) :
    KeepsContents host base (writes step f >>= rest) d := by
  refine Durable.steady_effect_bind h.inv (fun _ _ => h.owns) fun _ t ht => ?_
  cases ht
  exact ⟨hf.inv, by simp [hf.owned, hstep], hrest⟩

theorem contents_bind {α β : Type} {m : CampaignProgram C α} {f : α → CampaignProgram C β}
    (hm : KeepsContents host base m d)
    (hf : ∀ a, (m d).result = .ok a → (m d).state.Sound host base →
      KeepsContents host base (f a) (m d).state) : KeepsContents host base (m >>= f) d :=
  Durable.steady_bind hm fun a ha hinv howned => hf a ha (sound_of_steady hinv howned)

theorem CampaignDisk.Sound.setMetadata (h : d.Sound host base) {n : Nat} (metadata : RoundMetadata)
    (hmade : (d.round n).delta.isSome = true)
    (haccepted : metadata.taskIds.find? unsafeTaskId = none) :
    (d.setMetadata n metadata).Sound host base :=
  ⟨h.intact.setRound (fun _ => hmade) fun _ hset => Option.some.inj hset ▸ haccepted, h.holds,
    h.movable, h.owned.setRound (.inl rfl)⟩

theorem CampaignDisk.Sound.setStatus (h : d.Sound host base) (n : Nat) (status : RoundStatus) :
    (d.setStatus n status).Sound host base :=
  ⟨h.intact.setRound (h.intact.made n) (h.intact.accepted n), h.holds, h.movable,
    h.owned.setRound (.inl rfl)⟩

theorem CampaignDisk.Sound.setCampaign (h : d.Sound host base) (c : CampaignMetadata) :
    (d.setCampaign c).Sound host base :=
  ⟨⟨h.intact.hashes, h.intact.made, h.intact.accepted⟩, h.holds, h.movable, h.owned⟩

theorem CampaignDisk.Sound.setGeneration (h : d.Sound host base) {n : Nat}
    (hfree : d.generation n = none) {g : Generation C}
    (hg : g.record.contentSha256 = host.hash g.content) (hmovable : host.Movable g.content) :
    (d.setGeneration n g).Sound host base :=
  ⟨h.intact.setGeneration n hg, h.holds.setGeneration hfree g, h.movable.setGeneration n hmovable,
    h.owned⟩

theorem contents_initializeCampaign (hmoves : host.Relocates) (h : d.Sound host base) :
    KeepsContents host base (initializeCampaign host m) d := by
  refine contents_look_bind h fun campaign _ => ?_
  cases campaign with
  | some metadata =>
    simp only
    split
    · exact contents_raise _ h
    · exact contents_pure _ h
  | none =>
    refine Durable.steady_effect_bind h.inv (fun _ _ => h.owns) fun _ t ht => ?_
    cases hzero : d.generation 0 with
    | some g => simp [hzero] at ht
    | none =>
      simp only [hzero, Except.ok.injEq, Prod.mk.injEq, true_and] at ht
      subst ht
      have hfirst := h.setGeneration hzero (g := initialGeneration host) rfl hmoves.empty
      refine ⟨hfirst.inv, by simp [hfirst.owned, CampaignStep.strays], ?_⟩
      exact contents_writes_bind hfirst rfl (hfirst.setCampaign _)
        (contents_pure _ (hfirst.setCampaign _))

theorem contents_prepareRound (hmoves : host.Relocates) (h : d.Sound host base) :
    KeepsContents host base (prepareRound host m i) d := by
  refine contents_look_bind h fun _ _ => contents_look_bind h fun _ _ => ?_
  refine contents_bind (contents_initializeCampaign hmoves h) fun c _ h => ?_
  generalize (initializeCampaign host m d).state = t at h
  refine contents_look_bind h fun _ hchecked => contents_look_bind h fun metadata hmetadata => ?_
  obtain rfl : (t.round i.round).metadata = metadata := Except.ok.inj hmetadata
  cases hexisting : (t.round i.round).metadata with
  | some existing =>
    have hwarned (warnings : List String) := h.setMetadata { existing with warnings }
      (h.intact.made i.round (by rw [hexisting]; rfl))
      (h.intact.accepted i.round existing hexisting)
    simp only [resumeRound]
    split
    · exact contents_raise _ h
    · split
      · exact contents_raise _ h
      · split
        · exact contents_writes_bind h rfl (hwarned _) (contents_pure _ (hwarned _))
        · exact contents_pure _ h
  | none =>
    refine contents_look_bind h fun ⟨warnings, pairs⟩ _ => ?_
    have hmade : (t.setRound i.round { t.round i.round with
        delta := some ((t.round i.round).delta.getD []) }).Sound host base :=
      ⟨h.intact.setRound (fun _ => rfl) (h.intact.accepted i.round), h.holds, h.movable,
        h.owned.setRound (.inr rfl)⟩
    refine contents_writes_bind h rfl hmade ?_
    have hmetadata := hmade.setMetadata (newRound m i warnings) (n := i.round)
      (by rw [round_setRound, if_pos rfl]; rfl) (checkParentGeneration_ok.mp hchecked).2.1
    refine contents_writes_bind hmade rfl hmetadata ?_
    have hstatus := hmetadata.setStatus i.round ⟨"running", []⟩
    exact contents_writes_bind hmetadata rfl hstatus (contents_writes_bind hstatus rfl
      (hstatus.setCampaign _) (contents_pure _ (hstatus.setCampaign _)))

theorem contents_taskConfig {round : Nat} {taskId : String} (h : d.Sound host base) :
    KeepsContents host base (taskConfig host round taskId) d := by
  refine contents_look_bind h fun _ _ => contents_look_bind h fun branch hbranch => ?_
  cases branch with
  | some b => exact contents_pure _ h
  | none =>
    refine contents_look_bind h fun content hcontent => ?_
    obtain ⟨g, hparent, rfl⟩ := branchSource_ok hcontent
    obtain ⟨own, hown⟩ := h.movable.parent hparent (.branch round taskId)
    have hplaced : (d.setBranch round taskId ⟨g.content, false⟩).Intact host ∧
        (d.setBranch round taskId ⟨g.content, false⟩).Holds base ∧
          (d.setBranch round taskId ⟨g.content, false⟩).Movable host :=
      ⟨h.intact.setBranch round taskId _, h.holds, h.movable⟩
    generalize hset : d.setBranch round taskId ⟨g.content, false⟩ = t at hplaced
    have hmended : (t.setBranch round taskId ⟨own, true⟩).Sound host base := by
      refine ⟨hplaced.1.setBranch round taskId _, hplaced.2.1, hplaced.2.2, ?_⟩
      intro k other b hb
      subst hset
      rw [branch_setBranch, branch_setBranch] at hb
      split at hb
      · cases hb
        rfl
      · exact h.owned k other b hb
    refine Durable.steady_effect_bind h.inv (fun _ _ => h.owns) fun _ t' ht => ?_
    cases ht
    beta_reduce
    rw [hset]
    refine ⟨hplaced, iff_of_true (fun howned => ?_) (.inr rfl), ?_⟩
    · subst hset
      have hfalse := howned round taskId ⟨g.content, false⟩ (by rw [branch_setBranch]; simp)
      cases hfalse
    · have hrun : Durable.effect CampaignStep.relocateBranch (fun d : CampaignDisk C =>
          (host.relocate (.branch round taskId) g.content).map fun own =>
            ((), d.setBranch round taskId ⟨own, true⟩)) t =
        ⟨[(.relocateBranch, t.setBranch round taskId ⟨own, true⟩)], .ok (),
          t.setBranch round taskId ⟨own, true⟩⟩ := Durable.effect_ok (by rw [hown]; rfl)
      refine ⟨⟨?_, ?_⟩, ?_, ?_⟩
      · rw [hrun]
        intro p hp
        rw [List.mem_singleton.mp hp]
        exact hmended.inv
      · rw [hrun]
        exact hmended.inv
      · rw [hrun]
        intro p hp
        rw [List.mem_singleton.mp hp]
        simp [hmended.owned, CampaignStep.strays]
      · rw [hrun]
        exact hmended.owns

theorem CampaignDisk.Sound.worked (h : d.Sound host base) (round : Nat) (taskId : String)
    (change stray : C → C) : (d.worked round taskId change stray).Sound host base := by
  unfold CampaignDisk.worked
  split
  · exact h
  · next b hb =>
    simp only [h.owned round taskId b hb]
    exact ⟨h.intact.setBranch round taskId _, h.holds, h.movable,
      h.owned.setBranch round taskId rfl⟩

theorem contents_performTasks {round : Nat} (actions : List (RoundAction C))
    (h : d.Sound host base) : KeepsContents host base (performTasks host round actions) d := by
  induction actions generalizing d with
  | nil => exact contents_pure _ h
  | cons action actions ih =>
    refine contents_bind ?_ fun _ _ h => ih h
    cases action with
    | config taskId =>
      exact contents_bind (Durable.steady_attempt (contents_taskConfig h))
        fun _ _ h => contents_pure _ h
    | work taskId change stray => exact contents_writes h rfl (h.worked round taskId change stray)

theorem contents_finalizeRound {round : Nat} {results : List TaskResult} (hmoves : host.Relocates)
    (h : d.Sound host base) : KeepsContents host base (finalizeRound host round results) d := by
  refine contents_look_bind h fun metadata hmetadata => contents_look_bind h fun _ _ => ?_
  obtain rfl : (d.round round).metadata = metadata := Except.ok.inj hmetadata
  have hnote : KeepsContents host base (noteErrors round (d.round round).metadata results) d := by
    unfold noteErrors
    split
    · next metadata error errors hexisting _ =>
      have hnoted (warnings : List String) := h.setMetadata { metadata with warnings }
        (h.intact.made round (by rw [hexisting]; rfl)) (h.intact.accepted round metadata hexisting)
      exact contents_writes_bind h rfl (hnoted _) (contents_pure _ (hnoted _))
    · exact contents_pure _ h
  refine contents_bind hnote fun metadata hresult h => ?_
  have hnoted := noteErrors_ok rfl hresult
  generalize (noteErrors round (d.round round).metadata results d).state = t at h hnoted
  refine contents_look_bind h fun generation hgeneration => ?_
  obtain rfl : t.generation round = generation := Except.ok.inj hgeneration
  cases hfree : t.generation round with
  | some destination =>
    simp only
    split
    · exact contents_pure _ h
    · exact contents_raise _ h
  | none =>
    refine contents_look_bind h fun content hcontent => ?_
    cases metadata with
    | none => exact contents_raise _ h
    | some metadata =>
      obtain ⟨merged, own, hown, rfl⟩ := nextContent_relocated hcontent
      have hmade := h.intact.made round (by rw [hnoted]; rfl)
      have hpublished := h.setGeneration hfree
        (g := nextGeneration host round metadata (host.checkpoint own)) rfl
        (hmoves.again _ _ _ hown)
      have hcompleted := hpublished.setMetadata { metadata with status := "complete" } hmade
        (h.intact.accepted round metadata hnoted)
      have hstatus := hcompleted.setStatus round ⟨"complete", sortedTexts metadata.taskIds⟩
      refine contents_writes_bind h rfl hpublished (contents_writes_bind hpublished rfl hcompleted
        (contents_writes_bind hcompleted rfl hstatus ?_))
      refine contents_look_bind hstatus fun campaign _ => contents_look_bind hstatus fun _ _ =>
        contents_look_bind hstatus fun _ _ => contents_writes_bind hstatus rfl hstatus ?_
      exact contents_writes_bind hstatus rfl (hstatus.setCampaign campaign)
        (contents_writes (hstatus.setCampaign campaign) rfl (hstatus.setCampaign campaign))

theorem contents_benchmarkRun (hmoves : host.Relocates) (i : RoundCommand C)
    (h : d.Sound host base) : KeepsContents host base (benchmarkRun host i) d :=
  contents_bind (contents_prepareRound hmoves h) fun _ _ h =>
    contents_bind (contents_performTasks i.tasks h) fun _ _ h => contents_finalizeRound hmoves h

end Keeps

/-! ## A stranded campaign -/

/-- The generation that the campaign's metadata names. -/
def CampaignDisk.current (d : CampaignDisk C) : Option Nat :=
  d.campaign.map CampaignMetadata.currentGeneration

theorem stays_writes {P : CampaignDisk C → Prop} {d : CampaignDisk C} {step : CampaignStep}
    {f : CampaignDisk C → CampaignDisk C} (h : P d) (hf : P (f d)) :
    Durable.Stays P (writes step f) d := by
  refine Durable.stays_effect h fun _ t ht => ?_
  cases ht
  exact hf

theorem stays_writes_bind {P : CampaignDisk C → Prop} {d : CampaignDisk C} {α : Type}
    {step : CampaignStep} {f : CampaignDisk C → CampaignDisk C}
    {rest : Unit → CampaignProgram C α} (h : P d) (hf : P (f d))
    (hrest : Durable.Stays P (rest ()) (f d)) : Durable.Stays P (writes step f >>= rest) d :=
  Durable.stays_bind (stays_writes h hf) fun _ _ _ => hrest

section Stranded

variable {host : CampaignHost C} {m : CampaignManager} {i : RoundInput} {d : CampaignDisk C}
  {k : Option Nat}

/-- The campaign's metadata names the same generation throughout. -/
abbrev StaysAt {α : Type} (k : Option Nat) (m : CampaignProgram C α) (d : CampaignDisk C) : Prop :=
  Durable.Stays (fun t => t.current = k) m d

theorem staysAt_initializeCampaign (h : d.current = k) (hstranded : d.course.Stranded) :
    StaysAt k (initializeCampaign host m) d := by
  refine Durable.stays_look_bind h fun campaign hcampaign => ?_
  obtain rfl : d.campaign = campaign := Except.ok.inj hcampaign
  cases hnone : d.campaign with
  | some metadata =>
    simp only
    split
    · exact Durable.stays_raise _ h
    · exact Durable.stays_pure _ h
  | none =>
    have hfirst := (stranded_none (x := d.course) hnone).mp hstranded
    have herror : ∃ e, publishFirst host d = ⟨[], .error e, d⟩ := by
      cases hzero : d.generation 0 with
      | none =>
        simp only [CampaignDisk.course, hzero] at hfirst
        cases hfirst
      | some g => exact ⟨_, Durable.effect_error (by rw [hzero])⟩
    obtain ⟨e, herror⟩ := herror
    refine Durable.stays_bind ?_ fun _ hok _ => ?_
    · simp only [Durable.Stays, herror]
      exact ⟨by simp, h⟩
    · rw [herror] at hok
      cases hok

theorem staysAt_prepareRound (h : d.current = k)
    (hstranded : d.course.Stranded) : StaysAt k (prepareRound host m i) d := by
  refine Durable.stays_look_bind h fun _ _ => Durable.stays_look_bind h fun _ _ => ?_
  refine Durable.stays_bind (staysAt_initializeCampaign h hstranded) fun c hresult h => ?_
  have hc := initialize_campaign hresult
  generalize (initializeCampaign host m d).state = t at h hc
  refine Durable.stays_look_bind h fun _ _ => Durable.stays_look_bind h fun metadata _ => ?_
  cases metadata with
  | some existing =>
    simp only [resumeRound]
    split
    · exact Durable.stays_raise _ h
    · split
      · exact Durable.stays_raise _ h
      · split
        · exact stays_writes_bind h h (Durable.stays_pure _ h)
        · exact Durable.stays_pure _ h
  | none =>
    refine Durable.stays_look_bind h fun ⟨warnings, pairs⟩ _ => ?_
    rw [CampaignDisk.current, hc, Option.map_some] at h
    have hsame : t.current = k := by rw [CampaignDisk.current, hc, Option.map_some, h]
    exact stays_writes_bind hsame hsame (stays_writes_bind hsame hsame
      (stays_writes_bind hsame hsame (stays_writes_bind hsame h (Durable.stays_pure _ h))))

theorem campaign_worked (round : Nat) (taskId : String) (change stray : C → C) :
    (d.worked round taskId change stray).campaign = d.campaign :=
  congrArg Course.campaign (course_worked round taskId change stray)

theorem staysAt_performTasks {round : Nat} (actions : List (RoundAction C)) (h : d.current = k) :
    StaysAt k (performTasks host round actions) d := by
  induction actions generalizing d with
  | nil => exact Durable.stays_pure _ h
  | cons action actions ih =>
    refine Durable.stays_bind ?_ fun _ _ h => ih h
    cases action with
    | config taskId =>
      refine Durable.stays_bind (Durable.stays_attempt ?_) fun _ _ h => Durable.stays_pure _ h
      refine Durable.stays_look_bind h fun _ _ => Durable.stays_look_bind h fun branch _ => ?_
      cases branch with
      | some b => exact Durable.stays_pure _ h
      | none =>
        refine Durable.stays_look_bind h fun content _ => stays_writes_bind h h ?_
        refine Durable.stays_effect h fun _ t ht => ?_
        cases hown : host.relocate (.branch round taskId) content with
        | error e =>
          rw [hown] at ht
          cases ht
        | ok own =>
          rw [hown] at ht
          cases ht
          exact h
    | work taskId change stray =>
      refine stays_writes h ?_
      rw [CampaignDisk.current, campaign_worked]
      exact h

theorem staysAt_noteErrors {round : Nat} {metadata : Option RoundMetadata}
    {results : List TaskResult} (h : d.current = k) :
    StaysAt k (noteErrors round metadata results) d := by
  unfold noteErrors
  split
  · exact stays_writes_bind h h (Durable.stays_pure _ h)
  · exact Durable.stays_pure _ h

/-- The campaign that is stranded does not know the round whose generation is not there. -/
theorem unregistered_of_stranded {x : Course} (h : x.Regular) (hstranded : x.Stranded)
    {c : CampaignMetadata} (hc : x.campaign = some c) {round parent : Nat}
    (hbegun : x.begun round = some parent) (hfree : x.record round = none) :
    c.rounds.get? round = none := by
  have hround := h.next_of_begun hc hbegun hfree
  rw [stranded_some hc, ← hround, hfree] at hstranded
  rcases hstranded with hthere | ⟨-, hunknown⟩
  · cases hthere
  · exact hunknown

theorem staysAt_finalizeRound {round : Nat} {results : List TaskResult} (h : d.course.Regular)
    (hstranded : d.course.Stranded) (hk : d.current = k) :
    StaysAt k (finalizeRound host round results) d := by
  refine Durable.stays_look_bind hk fun metadata hmetadata => Durable.stays_look_bind hk
    fun _ _ => ?_
  obtain rfl : (d.round round).metadata = metadata := Except.ok.inj hmetadata
  have hkeeps : KeepsCourse d.course.Stranded
      (noteErrors round (d.round round).metadata results) d := keeps_noteErrors h Iff.rfl
  obtain ⟨⟨-, h⟩, -, hbefore⟩ := hkeeps
  refine Durable.stays_bind (staysAt_noteErrors hk) fun metadata hresult hk => ?_
  have hnoted := noteErrors_ok rfl hresult
  replace hstranded := hbefore.mpr hstranded
  generalize (noteErrors round (d.round round).metadata results d).state = t
    at h hstranded hk hnoted
  refine Durable.stays_look_bind hk fun generation hgeneration => ?_
  obtain rfl : t.generation round = generation := Except.ok.inj hgeneration
  cases hfree : t.generation round with
  | some destination =>
    simp only
    split
    · exact Durable.stays_pure _ hk
    · exact Durable.stays_raise _ hk
  | none =>
    refine Durable.stays_look_bind hk fun content _ => ?_
    cases metadata with
    | none => exact Durable.stays_raise _ hk
    | some metadata =>
      refine stays_writes_bind hk hk (stays_writes_bind hk hk (stays_writes_bind hk hk ?_))
      refine Durable.stays_look_bind hk fun campaign hrecorded => ?_
      have hbegun : t.course.begun round = some metadata.parentGeneration :=
        congrArg (Option.map RoundMetadata.parentGeneration) hnoted
      have hunpublished : t.course.record round = none :=
        congrArg (Option.map Generation.record) hfree
      cases hc : t.campaign with
      | none => simp [recordedCampaign, CampaignDisk.setStatus, CampaignDisk.setMetadata, hc]
          at hrecorded
      | some c =>
        have hunknown := unregistered_of_stranded h hstranded hc hbegun hunpublished
        simp [recordedCampaign, CampaignDisk.setStatus, CampaignDisk.setMetadata, hc, hunknown]
          at hrecorded

theorem staysAt_benchmarkRun (i : RoundCommand C) (h : d.course.Regular)
    (hstranded : d.course.Stranded) (hk : d.current = k) : StaysAt k (benchmarkRun host i) d := by
  have hprepared : KeepsCourse d.course.Stranded (prepareRound host i.manager i.input) d :=
    keeps_prepareRound h Iff.rfl
  refine Durable.stays_bind (staysAt_prepareRound hk hstranded) fun _ _ hk => ?_
  obtain ⟨⟨-, h'⟩, -, hsame⟩ := hprepared
  have hstranded' := hsame.mpr hstranded
  generalize (prepareRound host i.manager i.input d).state = t at h' hk hstranded'
  have hperformed : KeepsCourse t.course.Stranded (performTasks host i.input.round i.tasks) t :=
    keeps_performTasks i.tasks h' Iff.rfl
  refine Durable.stays_bind (staysAt_performTasks i.tasks hk) fun _ _ hk => ?_
  obtain ⟨⟨-, h''⟩, -, hsame'⟩ := hperformed
  exact staysAt_finalizeRound h'' (hsame'.mpr hstranded') hk

end Stranded

/-! ## A campaign that goes on -/

section Progress

variable {host : CampaignHost C} {d : CampaignDisk C} {c : CampaignMetadata} {n : Nat}
  {metadata : RoundMetadata}

theorem look_bind_run {α β : Type} {f : CampaignDisk C → Except Raised α}
    {rest : α → CampaignProgram C β} {a : α} (h : f d = .ok a) :
    (Durable.look f >>= rest) d = rest a d := by
  have hlook : Durable.look f d = (⟨[], .ok a, d⟩ : DurableRun CampaignStep _ _ _) := by
    rw [Durable.look_run, h]
  exact Durable.bind_ok hlook

theorem pure_bind_run {α β : Type} {rest : α → CampaignProgram C β} {a : α} :
    ((pure a : CampaignProgram C α) >>= rest) d = rest a d := Durable.bind_ok rfl

theorem writes_bind_state {α : Type} (step : CampaignStep) (f : CampaignDisk C → CampaignDisk C)
    (rest : Unit → CampaignProgram C α) :
    ((writes step f >>= rest) d).state = (rest () (f d)).state := rfl

/-- The next round is begun, and the campaign knows it. -/
structure Ready (d : CampaignDisk C) (c : CampaignMetadata) (n : Nat) (metadata : RoundMetadata) :
    Prop where
  campaign : d.campaign = some c
  known : (c.rounds.get? n).isSome = true
  metadata : (d.round n).metadata = some metadata
  made : (d.round n).delta.isSome = true
  parent : (d.parent n).isSome = true
  free : d.generation n = none

/-- The merge, the relocation and the inventory go through. -/
structure CampaignHost.Faultless (host : CampaignHost C) : Prop where
  merge : ∀ content branches, ∃ merged, host.merge content branches = .ok merged
  relocate : ∀ content, host.Movable content
  inventory : host.Inventoried

theorem CampaignHost.Faultless.relocates (h : host.Faultless) : host.Relocates :=
  ⟨h.relocate host.empty, fun _ _ own _ => h.relocate (host.checkpoint own)⟩

theorem nextContent_ready (hhost : host.Faultless) (h : Ready d c n metadata) :
    ∃ content, nextContent host n d = .ok content := by
  obtain ⟨g, hg⟩ := Option.isSome_iff_exists.mp h.parent
  obtain ⟨delta, hdelta⟩ := Option.isSome_iff_exists.mp h.made
  have htasks : ∃ taskIds, mergedTasks d n = .ok taskIds := by
    unfold mergedTasks
    split
    · rw [hdelta]
      exact ⟨_, rfl⟩
    · exact ⟨_, rfl⟩
  obtain ⟨taskIds, htasks⟩ := htasks
  obtain ⟨merged, hmerged⟩ := hhost.merge g.content
    (taskIds.filterMap fun taskId => (d.branch n taskId).map Branch.content)
  obtain ⟨own, hown⟩ := hhost.relocate merged (.generation n)
  refine ⟨host.checkpoint own, ?_⟩
  simp only [nextContent, hg, htasks, hmerged, hown]
  rfl

/-- The results of a round without errors. -/
def resolvedTasks (taskIds : List String) : List TaskResult :=
  taskIds.map fun taskId => ⟨taskId, false⟩

theorem checkComplete_resolved (taskIds : List String) :
    checkComplete taskIds (resolvedTasks taskIds) = .ok () := by
  have hids : (resolvedTasks taskIds).map TaskResult.taskId = taskIds := by
    simp [resolvedTasks, Function.comp_def]
  rw [checkComplete, hids, if_pos ⟨List.Subset.refl _, List.Subset.refl _⟩]

theorem errorTasks_resolved (taskIds : List String) : errorTasks (resolvedTasks taskIds) = [] := by
  simp [errorTasks, resolvedTasks]

/-- The round is finalized. -/
theorem finalize_ready (hhost : host.Faultless) (h : Ready d c n metadata) :
    (finalizeRound host n (resolvedTasks metadata.taskIds) d).state.current = some n := by
  obtain ⟨content, hcontent⟩ := nextContent_ready hhost h
  obtain ⟨entry, hentry⟩ := Option.isSome_iff_exists.mp h.known
  have hcomplete : checkComplete (expectedTasks (some metadata))
      (resolvedTasks metadata.taskIds) = .ok () := checkComplete_resolved metadata.taskIds
  have hnoted : noteErrors n (some metadata) (resolvedTasks metadata.taskIds) =
      (pure (some metadata) : CampaignProgram C _) := by
    simp only [noteErrors, errorTasks_resolved]
  have hrun : finalizeRound host n (resolvedTasks metadata.taskIds) d =
      publishRound host n metadata content d := by
    refine (look_bind_run (a := some metadata) (congrArg Except.ok h.metadata)).trans ?_
    refine (look_bind_run hcomplete).trans ?_
    rw [hnoted]
    refine pure_bind_run.trans ?_
    refine (look_bind_run (a := none) (congrArg Except.ok h.free)).trans ?_
    exact look_bind_run hcontent
  rw [hrun, publishRound, writes_bind_state, writes_bind_state, writes_bind_state, recordRound]
  have hrecorded : recordedCampaign n (((d.setGeneration n (nextGeneration host n metadata
      content)).setMetadata n { metadata with status := "complete" }).setStatus n
        ⟨"complete", sortedTexts metadata.taskIds⟩) = .ok { c with
      currentGeneration := n
      lineage := c.lineage ++ [⟨n, some (n - 1), some n⟩]
      rounds := c.rounds.set n { entry with
        status := "complete"
        repoFailPairs := c.pendingRepoFailPairs.getD [] }
      pendingRepoFailPairs := none } := by
    simp only [recordedCampaign, CampaignDisk.setStatus, CampaignDisk.setMetadata,
      campaign_setRound, campaign_setGeneration, h.campaign, hentry]
  rw [look_bind_run hrecorded, look_bind_run (readInventory_ok hhost.inventory _),
    look_bind_run (readInventory_ok hhost.inventory _), writes_bind_state, writes_bind_state]
  rfl

/-! ### Beginning the next round -/

/-- A manager that lets warnings pass. -/
def lenient (config model : String) : CampaignManager where
  variant := "evo"
  strict := false
  config
  model
  evo := rfl

/-- The command for a round of these tasks, with these hashes of manifest and dataset. -/
def plainInput (n : Nat) (taskIds : List String) (manifestSha256 datasetSha256 : String) :
    RoundInput where
  round := n
  manifestSha256
  datasetSha256
  taskIds
  rows := .ok []

/-- Other task ids than these are refused. -/
def AcceptedTasks (taskIds : List String) : Prop :=
  taskIds.find? unsafeTaskId = none ∧ taskIds.Nodup

theorem checkNewRound_lenient {n : Nat} {wanted : List String} (haccepted : AcceptedTasks wanted)
    (hlater : c.currentGeneration < n) (manifestSha256 datasetSha256 config model : String) :
    ∃ warnings pairs, checkNewRound (lenient config model)
      (plainInput n wanted manifestSha256 datasetSha256) c = .ok (warnings, pairs) := by
  have hsingle : wanted.filter (fun task => 1 < wanted.count task) = [] := by
    refine List.filter_eq_nil_iff.mpr fun task _ => ?_
    have hcount := List.nodup_iff_count_le_one.mp haccepted.2 task
    simpa using hcount
  have hduplicates : sortedTexts (wanted.filter fun task => 1 < wanted.count task) = [] := by
    rw [hsingle]
    rfl
  obtain ⟨warnings, pairs, hwarnings⟩ : ∃ warnings pairs, taskOverlapWarnings c
      (plainInput n wanted manifestSha256 datasetSha256) = .ok (warnings, pairs) := by
    exact ⟨_, _, if_neg (not_not.mpr hduplicates)⟩
  refine ⟨warnings, pairs, ?_⟩
  have hnot : ¬ (plainInput n wanted manifestSha256 datasetSha256).round ≤ c.currentGeneration :=
    Nat.not_le_of_lt hlater
  simp only [checkNewRound, hnot, if_false, hwarnings, lenient, Bool.false_eq_true, and_false]

/-- From a campaign that is not stranded the next round is entered, anew with any tasks or once
more with those that it was begun with. -/
theorem enter_ready (h : d.course.Regular) (hintact : d.Intact host)
    (hfree : ¬ d.course.Stranded) (hc : d.campaign = some c) {wanted : List String}
    (haccepted : AcceptedTasks wanted) :
    ∃ m i c' metadata warnings, i.round = c.currentGeneration + 1 ∧
      i.taskIds = (((d.round i.round).metadata).map RoundMetadata.taskIds).getD wanted ∧
      i.taskIds.find? unsafeTaskId = none ∧ metadata.taskIds = i.taskIds ∧
      (enterRound host m i c d).result = .ok warnings ∧
      Ready (enterRound host m i c d).state c' i.round metadata := by
  have hrecorded := h.recorded c hc
  have hcourse : d.course.campaign = some c := hc
  rw [stranded_some hcourse, not_or, not_and] at hfree
  obtain ⟨hunpublished, hknown⟩ := hfree
  have hnext : d.generation (c.currentGeneration + 1) = none := by
    cases hthere : d.generation (c.currentGeneration + 1) with
    | none => rfl
    | some g => simp [CampaignDisk.course, hthere] at hunpublished
  obtain ⟨g, hg⟩ : ∃ g, d.generation c.currentGeneration = some g := by
    have hthere := hrecorded.current
    cases hg : d.generation c.currentGeneration with
    | none => simp [CampaignDisk.course, hg] at hthere
    | some g => exact ⟨g, rfl⟩
  have hdescribes := h.described c.currentGeneration g.record
    (congrArg (Option.map Generation.record) hg)
  have hchecked : ∀ i : RoundInput, i.round = c.currentGeneration + 1 →
      i.taskIds.find? unsafeTaskId = none → checkParentGeneration host i c d = .ok () := by
    intro i hround hids
    refine checkParentGeneration_ok.mpr ⟨by omega, hids, g, ?_, hdescribes.status,
      hintact.hashes _ g hg, by omega⟩
    rw [hround]
    exact hg
  cases hmetadata : (d.round (c.currentGeneration + 1)).metadata with
  | some metadata =>
    have hbegun : d.course.begun (c.currentGeneration + 1) = some metadata.parentGeneration :=
      congrArg (Option.map RoundMetadata.parentGeneration) hmetadata
    obtain ⟨-, -, hparent⟩ := hrecorded.begun _ _ hbegun
    have hids := hintact.accepted _ metadata hmetadata
    refine ⟨lenient metadata.config metadata.model, plainInput (c.currentGeneration + 1)
      metadata.taskIds metadata.manifestSha256 metadata.datasetSha256, c, metadata,
      metadata.warnings, rfl, ?_, hids, rfl, ?_⟩
    · rw [plainInput, hmetadata]
      rfl
    · have hrun : enterRound host (lenient metadata.config metadata.model)
          (plainInput (c.currentGeneration + 1) metadata.taskIds metadata.manifestSha256
            metadata.datasetSha256) c d = ⟨[], .ok metadata.warnings, d⟩ := by
        refine (look_bind_run (hchecked _ rfl hids)).trans ?_
        refine (look_bind_run (a := some metadata) (congrArg Except.ok hmetadata)).trans ?_
        have hround : metadata.parentGeneration = c.currentGeneration + 1 - 1 := by omega
        simp [resumeRound, plainInput, lenient, hround]
      rw [hrun]
      refine ⟨rfl, hc, ?_, hmetadata, hintact.made (c.currentGeneration + 1)
        (by rw [hmetadata]; rfl), ?_, hnext⟩
      · rw [Option.isSome_iff_ne_none]
        exact hknown (by rw [hbegun]; rfl)
      · exact Option.isSome_iff_exists.mpr ⟨g, hg⟩
  | none =>
    let i := plainInput (c.currentGeneration + 1) wanted "" ""
    let m := lenient "" ""
    obtain ⟨warnings, pairs, hnew⟩ := checkNewRound_lenient haccepted
      (Nat.lt_succ_self c.currentGeneration) "" "" "" ""
    have hrun : enterRound host m i c d = beginRound m i c warnings pairs d := by
      refine (look_bind_run (hchecked _ rfl haccepted.1)).trans ?_
      refine (look_bind_run (a := none) (congrArg Except.ok hmetadata)).trans ?_
      exact look_bind_run (f := fun _ => checkNewRound m i c) hnew
    refine ⟨m, i, c.register i pairs, newRound m i warnings, warnings, rfl, ?_, haccepted.1, rfl,
      ?_⟩
    · show wanted = _
      rw [show i.round = c.currentGeneration + 1 from rfl, hmetadata]
      rfl
    · rw [hrun]
      refine ⟨rfl, ?_⟩
      simp only [beginRound, writes_bind_state]
      refine ⟨rfl, ?_, ?_, ?_, Option.isSome_iff_exists.mpr ⟨g, hg⟩, hnext⟩
      · rw [CampaignMetadata.register, Dict.get?_set_self]
        rfl
      · simp [CampaignDisk.setStatus, CampaignDisk.setMetadata]
      · simp [CampaignDisk.setStatus, CampaignDisk.setMetadata]

/-- The campaign's next generation. -/
def CampaignDisk.next (d : CampaignDisk C) : Nat :=
  match d.current with
  | none => 1
  | some n => n + 1

theorem initialize_some {m : CampaignManager} (hc : d.campaign = some c)
    (hvariant : c.variant = "evo") : initializeCampaign host m d = ⟨[], .ok c, d⟩ := by
  refine (look_bind_run (a := some c) (congrArg Except.ok hc)).trans ?_
  simp [hvariant, m.evo]

theorem initialize_none {m : CampaignManager} (hnone : d.campaign = none)
    (hfree : d.generation 0 = none) :
    (initializeCampaign host m d).result = .ok (initialCampaign m) ∧
      (initializeCampaign host m d).state =
        (d.setGeneration 0 (initialGeneration host)).setCampaign (initialCampaign m) := by
  have hfirst : publishFirst host d =
      ⟨[(.publishFirst, d.setGeneration 0 (initialGeneration host))], .ok (),
        d.setGeneration 0 (initialGeneration host)⟩ := Durable.effect_ok (by rw [hfree])
  have hrun : initializeCampaign host m d = (publishFirst host >>= fun _ =>
      writes .writeCampaign (fun d => d.setCampaign (initialCampaign m)) >>= fun _ =>
        pure (initialCampaign m)) d :=
    look_bind_run (a := none) (congrArg Except.ok hnone)
  rw [hrun, Durable.bind_ok hfirst]
  exact ⟨rfl, rfl⟩

/-- What `initialize` finds or makes of a campaign that is not stranded, whoever runs it. -/
theorem initialize_ready (h : d.course.Regular) (hintact : d.Intact host)
    (hfree : ¬ d.course.Stranded) :
    ∃ t c, (∀ m, ∃ passed, initializeCampaign host m d = ⟨passed, .ok c, t⟩) ∧
      t.course.Regular ∧ t.Intact host ∧ ¬ t.course.Stranded ∧ t.campaign = some c ∧
      t.round = d.round ∧ c.currentGeneration + 1 = d.next := by
  cases hc : d.campaign with
  | some c =>
    refine ⟨d, c, fun m => ⟨[], initialize_some hc (h.recorded c hc).variant⟩, h, hintact, hfree,
      hc, rfl, ?_⟩
    simp only [CampaignDisk.next, CampaignDisk.current, hc, Option.map_some]
  | none =>
    have hzero : d.generation 0 = none := by
      rw [stranded_none (x := d.course) hc] at hfree
      cases hthere : d.generation 0 with
      | none => rfl
      | some g => simp [CampaignDisk.course, hthere] at hfree
    let c : CampaignMetadata := initialCampaign (lenient "" "")
    have hsame : ∀ m, initialCampaign m = c := by
      intro m
      simp only [initialCampaign, m.evo]
      rfl
    have hrun : ∀ m, ∃ passed, initializeCampaign host m d =
        ⟨passed, .ok c, (d.setGeneration 0 (initialGeneration host)).setCampaign c⟩ := by
      intro m
      have hinit : (initializeCampaign host m d).result = .ok (initialCampaign m) ∧
          (initializeCampaign host m d).state =
            (d.setGeneration 0 (initialGeneration host)).setCampaign (initialCampaign m) :=
        initialize_none hc hzero
      obtain ⟨hresult, hstate⟩ := hinit
      rw [hsame m] at hresult hstate
      cases hinit : initializeCampaign host m d with
      | mk passed result t =>
        rw [hinit] at hresult hstate
        exact ⟨passed, by rw [← show result = .ok c from hresult, ← show t = _ from hstate]⟩
    obtain ⟨passed, hinit⟩ := hrun (lenient "" "")
    have hkeeps : KeepsCourse d.course.Stranded
        (initializeCampaign host (lenient "" "")) d := keeps_initializeCampaign h Iff.rfl
    obtain ⟨⟨-, hregular⟩, -, hstranded⟩ := hkeeps
    rw [hinit] at hregular hstranded
    refine ⟨_, c, hrun, hregular, ?_, fun hthere => hfree (hstranded.mp hthere), rfl, rfl, ?_⟩
    · have hfirst := hintact.setGeneration 0 (g := initialGeneration host) rfl
      exact ⟨hfirst.hashes, hfirst.made, hfirst.accepted⟩
    · simp only [CampaignDisk.next, CampaignDisk.current, hc, Option.map_none]
      rfl

/-- The tasks of the next round: those that it was begun with, or else these. -/
def CampaignDisk.nextTasks (d : CampaignDisk C) (wanted : List String) : List String :=
  (((d.round d.next).metadata).map RoundMetadata.taskIds).getD wanted

/-- A campaign that is not stranded can be run to its next generation, with any tasks where the
round is not begun. -/
theorem exists_next (hhost : host.Faultless) (h : d.course.Regular) (hintact : d.Intact host)
    (hfree : ¬ d.course.Stranded) {wanted : List String} (haccepted : AcceptedTasks wanted) :
    ∃ i : RoundCommand C, i.input.taskIds = d.nextTasks wanted ∧
      i.results = resolvedTasks i.input.taskIds ∧
      (benchmarkRun host i d).state.current = some d.next := by
  obtain ⟨t, c, hinit, hregular, hkept, hunstranded, hc, hrounds, hnext⟩ :=
    initialize_ready h hintact hfree
  obtain ⟨m, i, c', metadata, warnings, hround, htaken, hids, hmetadata, hresult, hready⟩ :=
    enter_ready hregular hkept hunstranded hc haccepted
  refine ⟨⟨m, i, [], resolvedTasks metadata.taskIds, none⟩, ?_, congrArg resolvedTasks hmetadata,
    ?_⟩
  · rw [htaken, hrounds, hround, hnext]
    rfl
  obtain ⟨passed, hinit⟩ := hinit m
  have hnumber : checkRoundNumber i.round = .ok () := if_neg (by omega)
  have htasks : checkTaskIds host i.taskIds = .ok () := by
    rw [checkTaskIds, hids]
  have hprepared : (prepareRound host m i d).result = .ok warnings ∧
      (prepareRound host m i d).state = (enterRound host m i c t).state := by
    have hrun : prepareRound host m i d =
        (initializeCampaign host m >>= enterRound host m i) d :=
      (look_bind_run (f := fun _ => checkRoundNumber i.round) hnumber).trans
        (look_bind_run (f := fun _ => checkTaskIds host i.taskIds) htasks)
    rw [hrun, Durable.bind_ok hinit]
    exact ⟨hresult, rfl⟩
  obtain ⟨hok, hstate⟩ := hprepared
  have hfinal := finalize_ready hhost hready
  cases hrun : prepareRound host m i d with
  | mk passed result u =>
    rw [hrun] at hok hstate
    simp only at hok hstate
    subst hok hstate
    have hall : (benchmarkRun host ⟨m, i, [], resolvedTasks metadata.taskIds, none⟩ d).state =
        (finalizeRound host i.round (resolvedTasks metadata.taskIds)
          (enterRound host m i c t).state).state := by
      rw [benchmarkRun, Durable.bind_ok hrun]
      change ((pure () >>= fun _ => finalizeRound host i.round (resolvedTasks metadata.taskIds))
        (enterRound host m i c t).state).state = _
      rw [pure_bind_run]
    rw [hall, hfinal, hround, hnext]

end Progress

/-! ## Histories -/

section Histories

variable {host : CampaignHost C}

/-- The campaign's directory behind a history of the command. -/
def campaignAfter (host : CampaignHost C) (history : List (RoundCommand C)) : CampaignDisk C :=
  Durable.behind (benchmarkRun host) RoundCommand.crash {} history

/-- Some run of the command dies behind such an effect. -/
def DiesBehind (host : CampaignHost C) (exposed : CampaignStep → Bool)
    (history : List (RoundCommand C)) : Prop :=
  Durable.Exposed (benchmarkRun host) RoundCommand.crash exposed {} history

instance (host : CampaignHost C) (exposed : CampaignStep → Bool) (history : List (RoundCommand C)) :
    Decidable (DiesBehind host exposed history) := Durable.decidableExposed _ _ _ _ _

theorem regular_nothing : (({} : CampaignDisk C).course).Regular where
  described n r hr := by cases hr
  contiguous n hn := by cases hn
  fresh _ := ⟨fun _ => rfl, fun _ => rfl⟩
  recorded c hc := by cases hc

theorem sound_nothing : ({} : CampaignDisk C).Sound host {} where
  intact := ⟨nofun, nofun, nofun⟩
  holds := nofun
  movable := nofun
  owned := nofun

theorem behind_steady (hread : host.Inventoried) (i : RoundCommand C) (d : CampaignDisk C)
    (h : d.course.Regular) : KeepsCourse d.course.Stranded (benchmarkRun host i) d :=
  keeps_benchmarkRun hread i h

theorem behind_regular (hread : host.Inventoried) (history : List (RoundCommand C)) :
    (campaignAfter host history).course.Regular :=
  Durable.behind_inv (behind_steady hread) regular_nothing history

theorem stranded_iff (hread : host.Inventoried) (history : List (RoundCommand C)) :
    (campaignAfter host history).course.Stranded ↔
      DiesBehind host CampaignStep.exposed history := by
  have hall : (campaignAfter host history).course.Stranded ↔
      (({} : CampaignDisk C).course).Stranded ∨ DiesBehind host CampaignStep.exposed history :=
    Durable.behind_damaged (behind_steady hread) regular_nothing history
  have hnot : ¬ (({} : CampaignDisk C).course).Stranded := by
    rw [stranded_none rfl]
    exact Bool.false_ne_true
  rwa [or_iff_right hnot] at hall

/-- However often the command dies, the generations are those up to a last one, each says rightly
what it is, and the campaign's metadata names them all but for a last one that it may not know; and
this happens, or a round is lost to it, just when the command dies behind an exposed effect. -/
theorem campaign_regular (hread : host.Inventoried) (history : List (RoundCommand C)) :
    (campaignAfter host history).course.Regular ∧
      ((campaignAfter host history).course.Stranded ↔
        DiesBehind host CampaignStep.exposed history) :=
  ⟨behind_regular hread history, stranded_iff hread history⟩

theorem behind_stranded (hread : host.Inventoried) {d : CampaignDisk C} (h : d.course.Regular)
    (hstranded : d.course.Stranded) (more : List (RoundCommand C)) :
    (Durable.behind (benchmarkRun host) RoundCommand.crash d more).current = d.current := by
  have hkept : ∀ (t : CampaignDisk C) (i : RoundCommand C),
      t.course.Regular ∧ t.course.Stranded ∧ t.current = d.current →
        ((benchmarkRun host i).leaves i.crash t).course.Regular ∧
          ((benchmarkRun host i).leaves i.crash t).course.Stranded ∧
            ((benchmarkRun host i).leaves i.crash t).current = d.current := by
    rintro t i ⟨hregular, hstranded, hcurrent⟩
    have hsteady := keeps_benchmarkRun hread i hregular
    exact ⟨hsteady.stays.leaves hregular i.crash,
      (hsteady.leaves_damaged i.crash).mpr (.inl hstranded),
      (staysAt_benchmarkRun i hregular hstranded hcurrent).leaves hcurrent i.crash⟩
  exact (Run.invariant hkept ⟨h, hstranded, rfl⟩ more).2.2

theorem behind_sound {d base : CampaignDisk C} (hmoves : host.Relocates) (hd : d.Sound host base)
    {more : List (RoundCommand C)}
    (hplaced : ¬ Durable.Exposed (benchmarkRun host) RoundCommand.crash CampaignStep.strays
      d more) :
    (Durable.behind (benchmarkRun host) RoundCommand.crash d more).Sound host base := by
  obtain ⟨hinv, howned⟩ := Durable.behind_sound
    (fun i _ t hinv howned =>
      contents_benchmarkRun hmoves i (sound_of_steady hinv (iff_false_intro howned)))
    hd.inv (not_not.mpr hd.owned) hplaced
  exact sound_of_steady hinv (iff_false_intro howned)

/-- As long as the command does not die behind the placing of a branch, generations are kept. -/
theorem behind_kept (hmoves : host.Relocates) {history more : List (RoundCommand C)}
    (hplaced : ¬ DiesBehind host CampaignStep.strays (history ++ more)) {n : Nat}
    {g : Generation C} (hg : (campaignAfter host history).generation n = some g) :
    (campaignAfter host (history ++ more)).generation n = some g ∧
      g.record.contentSha256 = host.hash g.content := by
  rw [DiesBehind, Durable.exposed_append, not_or] at hplaced
  have hsound := behind_sound hmoves sound_nothing hplaced.1
  have hstart : (campaignAfter host history).Sound host (campaignAfter host history) :=
    ⟨hsound.intact, fun _ _ h => h, hsound.movable, hsound.owned⟩
  have hmore := behind_sound hmoves hstart hplaced.2
  refine ⟨?_, hsound.intact.hashes n g hg⟩
  rw [campaignAfter, Durable.behind_append]
  exact hmore.holds n g hg

/-- The campaign stays at the generation that its metadata names, whatever runs of the command
follow, just when the command has died behind an exposed effect; until then a run of it that
resolves its tasks comes to the next generation, whatever tasks these are. -/
theorem campaign_stuck_iff (hhost : host.Faultless) {history : List (RoundCommand C)}
    (hplaced : ¬ DiesBehind host CampaignStep.strays history) :
    ((∀ more, (campaignAfter host (history ++ more)).current =
        (campaignAfter host history).current) ↔
      DiesBehind host CampaignStep.exposed history) ∧
    (¬ DiesBehind host CampaignStep.exposed history → ∀ wanted, AcceptedTasks wanted →
      ∃ i : RoundCommand C,
        i.input.taskIds = (campaignAfter host history).nextTasks wanted ∧
        i.results = resolvedTasks i.input.taskIds ∧
        (benchmarkRun host i (campaignAfter host history)).state.current =
          some (campaignAfter host history).next) := by
  have hregular := behind_regular hhost.inventory history
  have hstranded := stranded_iff hhost.inventory history
  have hintact := (behind_sound hhost.relocates sound_nothing hplaced).intact
  have hnext : ¬ DiesBehind host CampaignStep.exposed history → ∀ wanted, AcceptedTasks wanted →
      ∃ i : RoundCommand C, i.input.taskIds = (campaignAfter host history).nextTasks wanted ∧
        i.results = resolvedTasks i.input.taskIds ∧
        (benchmarkRun host i (campaignAfter host history)).state.current =
          some (campaignAfter host history).next :=
    fun hfree _ => exists_next hhost hregular hintact fun hthere => hfree (hstranded.mp hthere)
  refine ⟨⟨fun hstuck => ?_, fun hexposed more => ?_⟩, hnext⟩
  · by_contra hfree
    obtain ⟨i, -, -, hi⟩ := hnext hfree [] ⟨rfl, List.nodup_nil⟩
    have hsame := hstuck [{ i with crash := none }]
    rw [campaignAfter, Durable.behind_append] at hsame
    have hchanged : some (campaignAfter host history).next = (campaignAfter host history).current :=
      hi.symm.trans hsame
    rw [CampaignDisk.next] at hchanged
    cases hcurrent : (campaignAfter host history).current with
    | none =>
      rw [hcurrent] at hchanged
      cases hchanged
    | some n =>
      rw [hcurrent] at hchanged
      have heq : n + 1 = n := Option.some.inj hchanged
      omega
  · rw [campaignAfter, Durable.behind_append]
    exact behind_stranded hhost.inventory hregular (hstranded.mpr hexposed) more

end Histories

namespace Sample

/-- The lessons, one in a line of the only file. -/
def lessonTree (lessons : List String) : FileTree where
  files := [⟨["memory.sqlite"], encode ("\n".intercalate lessons)⟩]
  distinct := List.nodup_singleton _
  named file hfile := by
    have hname : ∀ part ∈ ["memory.sqlite"], IsName part := by decide +kernel
    rw [List.mem_singleton.mp hfile]
    exact ⟨List.cons_ne_nil _ _, hname⟩

/-- A campaign whose contents are lists of lessons. -/
def lessonsHost : CampaignHost (List String) where
  sha256 := byteText
  reprTask taskId := taskId
  state lessons := some (lessonTree lessons)
  skills _ := none
  empty := []
  merge lessons branches := .ok (branches.foldl (fun merged branch =>
    merged ++ branch.filter fun lesson => lesson ∉ merged) lessons)
  relocate _ lessons := .ok lessons
  checkpoint lessons := lessons
  inventory _ := .ok ()

theorem lessons_faultless : lessonsHost.Faultless where
  merge _ _ := ⟨_, rfl⟩
  relocate _ _ := ⟨_, rfl⟩
  inventory _ := rfl

/-- A task adds its lesson to what it was given, and nothing to anything else. -/
def learns (taskId : String) : RoundAction (List String) :=
  .work taskId (· ++ [s!"lesson of {taskId}"]) id

/-- A round with two tasks that learn a lesson each. -/
def twoTasks (n : Nat) (crash : Option Nat) : RoundCommand (List String) where
  manager := lenient "" ""
  input := ⟨n, "manifest", "dataset", ["a", "b"], .ok []⟩
  tasks := [.config "a", learns "a", .config "b", learns "b"]
  results := resolvedTasks ["a", "b"]
  crash

/-- A whole round leaves the campaign as it should be, and one that dies behind the publication of
its generation does not. -/
theorem round_recorded : (campaignAfter lessonsHost [twoTasks 1 none]).course.Regular ∧
    ¬ (campaignAfter lessonsHost [twoTasks 1 none]).course.Stranded ∧
      (campaignAfter lessonsHost [twoTasks 1 (some 13)]).course.Stranded := by
  have hwhole := campaign_regular lessons_faultless.inventory [twoTasks 1 none]
  have hcut := campaign_regular lessons_faultless.inventory [twoTasks 1 (some 13)]
  refine ⟨hwhole.1, ?_, hcut.2.mpr (by decide +kernel)⟩
  rw [hwhole.2]
  decide +kernel

/-- A task whose branch was placed and not relocated writes to the generation that it reads. -/
example : ((campaignAfter lessonsHost [twoTasks 1 (some 7), { twoTasks 1 none with
    tasks := [.config "a", .work "a" (· ++ ["mine"]) (· ++ ["stray"])] }]).generation 0).map
      Generation.content = some ["stray"] := by decide +kernel

/-- A process that dies between the publication of a generation and its record is the last to get
anywhere: the round that is run again, and another one, leave the campaign where it was. Behind the
beginning of the round it could have been run again. -/
theorem stuck_behind_publication : (campaignAfter lessonsHost
    ([twoTasks 1 (some 13)] ++ [twoTasks 1 none, twoTasks 2 none])).current = some 0 ∧
    ∃ i : RoundCommand (List String), i.input.taskIds = ["a", "b"] ∧
      (benchmarkRun lessonsHost i (campaignAfter lessonsHost [twoTasks 1 (some 6)])).state.current =
        some 1 := by
  constructor
  · exact ((campaign_stuck_iff lessons_faultless (by decide +kernel)).1.mpr (by decide +kernel)
      [twoTasks 1 none, twoTasks 2 none]).trans (by decide +kernel)
  · have hnext : (campaignAfter lessonsHost [twoTasks 1 (some 6)]).next = 1 := by decide +kernel
    have htasks : (campaignAfter lessonsHost [twoTasks 1 (some 6)]).nextTasks ["a", "b"] =
        ["a", "b"] := by decide +kernel
    have hplaced : ¬ DiesBehind lessonsHost CampaignStep.strays [twoTasks 1 (some 6)] := by
      decide +kernel
    obtain ⟨i, hids, -, hi⟩ := (campaign_stuck_iff lessons_faultless hplaced).2 (by decide +kernel)
      ["a", "b"] ⟨by decide +kernel, by simp⟩
    rw [hnext] at hi
    exact ⟨i, hids.trans htasks, hi⟩

end Sample

end EvoCI
