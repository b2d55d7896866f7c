import EvoCI.Campaign.Rounds
import EvoCI.Library.Crash

/-! The course of a campaign behind crashes: which generations are published and recorded, and
when a campaign can go on. -/

namespace EvoCI

open Library

variable {C : Type}

/-! ## Reading what was written -/

section Disk

variable (d : CampaignDisk C) (n k : Nat)

@[simp] theorem generation_setGeneration (g : Generation C) :
    (d.setGeneration n g).generation k = if k = n then some g else d.generation k :=
  Dict.get?_set _ _ _ _

@[simp] theorem round_setGeneration (g : Generation C) :
    (d.setGeneration n g).round k = d.round k := rfl

@[simp] theorem campaign_setGeneration (g : Generation C) :
    (d.setGeneration n g).campaign = d.campaign := rfl

@[simp] theorem round_setRound (r : RoundDirectory C) :
    (d.setRound n r).round k = if k = n then r else d.round k := by
  simp only [CampaignDisk.round, CampaignDisk.setRound, Dict.get?_set]
  split <;> rfl

@[simp] theorem generation_setRound (r : RoundDirectory C) :
    (d.setRound n r).generation k = d.generation k := rfl

@[simp] theorem campaign_setRound (r : RoundDirectory C) :
    (d.setRound n r).campaign = d.campaign := rfl

@[simp] theorem generation_setCampaign (c : CampaignMetadata) :
    (d.setCampaign c).generation k = d.generation k := rfl

@[simp] theorem round_setCampaign (c : CampaignMetadata) :
    (d.setCampaign c).round k = d.round k := rfl

@[simp] theorem campaign_setCampaign (c : CampaignMetadata) :
    (d.setCampaign c).campaign = some c := rfl

end Disk

/-! ## The course -/

/-- What the course of a campaign depends on: its metadata, the generations there and the rounds
that have their metadata, with the parents they name. -/
structure Course where
  campaign : Option CampaignMetadata
  record : Nat → Option GenerationRecord
  begun : Nat → Option Nat

def CampaignDisk.course (d : CampaignDisk C) : Course where
  campaign := d.campaign
  record n := (d.generation n).map Generation.record
  begun n := (d.round n).metadata.map RoundMetadata.parentGeneration

/-- The lineage up to a generation. -/
def lineageTo : Nat → List LineageEntry
  | 0 => [⟨0, none, none⟩]
  | n + 1 => lineageTo n ++ [⟨n + 1, some n, some (n + 1)⟩]

/-- What a generation says of itself is right. -/
structure GenerationRecord.Describes (r : GenerationRecord) (n : Nat) : Prop where
  generation : r.generation = n
  parent : r.parentGeneration = if n = 0 then none else some (n - 1)
  source : r.sourceRound = if n = 0 then none else some n
  status : r.status = "complete"

/-- The metadata of a campaign fits what is there. -/
structure Course.Recorded (x : Course) (c : CampaignMetadata) : Prop where
  variant : c.variant = "evo"
  lineage : c.lineage = lineageTo c.currentGeneration
  current : (x.record c.currentGeneration).isSome = true
  bound : x.record (c.currentGeneration + 2) = none
  registered : ∀ n, (c.rounds.get? n).isSome = true → (x.begun n).isSome = true
  ended : ∀ n, 1 ≤ n → n ≤ c.currentGeneration →
    ∃ entry, c.rounds.get? n = some entry ∧ entry.status = "complete"
  begun : ∀ n parent, x.begun n = some parent →
    1 ≤ n ∧ n ≤ c.currentGeneration + 1 ∧ parent + 1 = n
  published : (x.record (c.currentGeneration + 1)).isSome = true →
    (x.begun (c.currentGeneration + 1)).isSome = true

/-- The generations are those up to a last one, and the campaign's metadata fits them. -/
structure Course.Regular (x : Course) : Prop where
  described : ∀ n r, x.record n = some r → r.Describes n
  contiguous : ∀ n, (x.record (n + 1)).isSome = true → (x.record n).isSome = true
  fresh : x.campaign = none → (∀ n, x.record (n + 1) = none) ∧ ∀ n, x.begun n = none
  recorded : ∀ c, x.campaign = some c → x.Recorded c

/-- The campaign has a generation that its metadata does not know, or a round that the metadata
does not know and that is not begun again. -/
def Course.Stranded (x : Course) : Prop :=
  match x.campaign with
  | none => (x.record 0).isSome = true
  | some c => (x.record (c.currentGeneration + 1)).isSome = true ∨
      (x.begun (c.currentGeneration + 1)).isSome = true ∧
        c.rounds.get? (c.currentGeneration + 1) = none

/-- Behind these effects the campaign's metadata has yet to follow. -/
def CampaignStep.exposed : CampaignStep → Bool
  | .publishFirst | .writeRoundMetadata | .writeRoundStatus | .publish | .completeMetadata
  | .completeStatus | .writeAggregate => true
  | _ => false

/-- The course is kept, and stranded behind exposed effects alone. -/
abbrev KeepsCourse {α : Type} (before : Prop) (m : CampaignProgram C α) (d : CampaignDisk C) :
    Prop :=
  Durable.Steady (fun d => d.course.Regular) (fun d => d.course.Stranded) CampaignStep.exposed
    before m d

section

variable {x : Course} {c : CampaignMetadata}

theorem Course.Regular.below (h : x.Regular) {n k : Nat} (hn : (x.record n).isSome = true)
    (hk : k ≤ n) : (x.record k).isSome = true := by
  induction n with
  | zero => rwa [Nat.le_zero.mp hk]
  | succ n ih =>
    rcases Nat.le_succ_iff.mp hk with hk | rfl
    · exact ih (h.contiguous n hn) hk
    · exact hn

/-- A round that is begun and whose generation is not there is the next one. -/
theorem Course.Regular.next_of_begun (h : x.Regular) (hc : x.campaign = some c) {n parent : Nat}
    (hbegun : x.begun n = some parent) (hfree : x.record n = none) :
    n = c.currentGeneration + 1 := by
  obtain ⟨-, hbound, -⟩ := (h.recorded c hc).begun n parent hbegun
  by_contra hne
  have hthere := h.below (h.recorded c hc).current (k := n) (by omega)
  rw [hfree] at hthere
  cases hthere

theorem stranded_some (hc : x.campaign = some c) : x.Stranded ↔
    (x.record (c.currentGeneration + 1)).isSome = true ∨
      (x.begun (c.currentGeneration + 1)).isSome = true ∧
        c.rounds.get? (c.currentGeneration + 1) = none := by
  rw [Course.Stranded, hc]

theorem stranded_none (hc : x.campaign = none) :
    x.Stranded ↔ (x.record 0).isSome = true := by
  rw [Course.Stranded, hc]

end

/-! ## What the writes do to the course -/

section Writes

variable (d : CampaignDisk C) (n : Nat)

theorem course_setGeneration (g : Generation C) : (d.setGeneration n g).course =
    { d.course with record := Function.update d.course.record n (some g.record) } := by
  simp only [CampaignDisk.course, campaign_setGeneration, round_setGeneration, Course.mk.injEq,
    true_and, and_true]
  funext k
  rw [generation_setGeneration, Function.update_apply]
  split <;> rfl

/-- A generation's content does not matter. -/
theorem course_content {g : Generation C} (hg : d.generation n = some g) (content : C) :
    (d.setGeneration n { g with content }).course = d.course := by
  rw [course_setGeneration]
  have hsame : d.course.record n = some g.record := congrArg (Option.map Generation.record) hg
  rw [← hsame, Function.update_eq_self]

theorem course_setMetadata (metadata : RoundMetadata) : (d.setMetadata n metadata).course =
    { d.course with
      begun := Function.update d.course.begun n (some metadata.parentGeneration) } := by
  simp only [CampaignDisk.course, CampaignDisk.setMetadata, campaign_setRound,
    generation_setRound, Course.mk.injEq, true_and]
  funext k
  rw [round_setRound, Function.update_apply]
  split <;> rfl

/-- Metadata that names the same parent. -/
theorem course_rewritten (metadata : RoundMetadata) {parent : Nat}
    (hbegun : d.course.begun n = some parent) (hparent : metadata.parentGeneration = parent) :
    (d.setMetadata n metadata).course = d.course := by
  rw [course_setMetadata, hparent, ← hbegun, Function.update_eq_self]

theorem course_setRound {r : RoundDirectory C} (h : r.metadata = (d.round n).metadata) :
    (d.setRound n r).course = d.course := by
  simp only [CampaignDisk.course, campaign_setRound, generation_setRound, Course.mk.injEq,
    true_and]
  funext k
  rw [round_setRound]
  split
  · next hk => rw [h, hk]
  · rfl

theorem course_setStatus (status : RoundStatus) : (d.setStatus n status).course = d.course :=
  course_setRound d n rfl

theorem course_setBranch (taskId : String) (b : Branch C) :
    (d.setBranch n taskId b).course = d.course := course_setRound d n rfl

end Writes

/-! ## Steps of the course -/

section Steps

variable {x : Course} {c : CampaignMetadata} {r : GenerationRecord} {m : CampaignManager}
  {i : RoundInput} {n : Nat}

/-- The first generation is there, and the campaign not yet. -/
theorem regular_first (h : x.Regular) (hnone : x.campaign = none) (hr : r.Describes 0) :
    Course.Regular { x with record := Function.update x.record 0 (some r) } := by
  obtain ⟨hgenerations, hrounds⟩ := h.fresh hnone
  refine ⟨fun n r' hn => ?_, fun n hn => ?_, fun _ => ⟨fun n => ?_, hrounds⟩, fun c hc => ?_⟩
  · by_cases hzero : n = 0
    · subst hzero
      simp only [Function.update_self, Option.some.injEq] at hn
      exact hn ▸ hr
    · simp only [Function.update_of_ne hzero] at hn
      exact h.described n r' hn
  · simp only [Function.update_of_ne (Nat.succ_ne_zero n), hgenerations n] at hn
    cases hn
  · simp only [Function.update_of_ne (Nat.succ_ne_zero n), hgenerations n]
  · simp only [hnone] at hc
    cases hc

/-- The campaign begins with its first generation. -/
theorem regular_initial (h : x.Regular) (hnone : x.campaign = none)
    (hfirst : (x.record 0).isSome = true) :
    Course.Regular { x with campaign := some (initialCampaign m) } ∧
      ¬ Course.Stranded { x with campaign := some (initialCampaign m) } := by
  obtain ⟨hgenerations, hrounds⟩ := h.fresh hnone
  refine ⟨⟨h.described, h.contiguous, nofun, fun c hc => ?_⟩, ?_⟩
  · cases hc
    refine ⟨m.evo, rfl, hfirst, hgenerations 1, fun n hn => ?_, fun n hn hle => ?_,
      fun n parent hn => ?_, fun hn => ?_⟩
    · cases hn
    · have hzero : n ≤ 0 := hle
      omega
    · rw [hrounds n] at hn
      cases hn
    · have hone : (x.record 1).isSome = true := hn
      rw [hgenerations 0] at hone
      cases hone
  · rw [stranded_some rfl]
    rintro (hn | ⟨hn, -⟩)
    · have hone : (x.record 1).isSome = true := hn
      rw [hgenerations 0] at hone
      cases hone
    · have hone : (x.begun 1).isSome = true := hn
      rw [hrounds 1] at hone
      cases hone

/-- The next round has its metadata, and the campaign does not know it. -/
theorem regular_begin (h : x.Regular) (hc : x.campaign = some c)
    (hn : n = c.currentGeneration + 1) (hfree : x.begun n = none) :
    Course.Regular { x with begun := Function.update x.begun n (some (n - 1)) } ∧
      Course.Stranded { x with begun := Function.update x.begun n (some (n - 1)) } := by
  have hrecorded := h.recorded c hc
  have hunregistered : c.rounds.get? n = none := by
    cases hentry : c.rounds.get? n with
    | none => rfl
    | some entry =>
      have hbegun := hrecorded.registered n (by rw [hentry]; rfl)
      rw [hfree] at hbegun
      cases hbegun
  refine ⟨⟨h.described, h.contiguous, fun hnone => ?_, fun c' hc' => ?_⟩, ?_⟩
  · simp only [hc] at hnone
    cases hnone
  · obtain rfl : c = c' := Option.some.inj (hc.symm.trans hc')
    refine { hrecorded with
      registered := fun k hk => ?_, begun := fun k parent hk => ?_, published := fun _ => ?_ }
    · by_cases hkn : k = n
      · subst hkn
        simp only [Function.update_self, Option.isSome_some]
      · simp only [Function.update_of_ne hkn]
        exact hrecorded.registered k hk
    · by_cases hkn : k = n
      · subst hkn
        simp only [Function.update_self, Option.some.injEq] at hk
        omega
      · simp only [Function.update_of_ne hkn] at hk
        exact hrecorded.begun k parent hk
    · simp only [← hn, Function.update_self, Option.isSome_some]
  · refine Iff.mpr (stranded_some hc) ?_
    rw [← hn]
    exact .inr ⟨by simp only [Function.update_self, Option.isSome_some], hunregistered⟩

/-- The campaign comes to know the round that it has begun. -/
theorem regular_register (h : x.Regular) (hc : x.campaign = some c)
    (hn : i.round = c.currentGeneration + 1) (hbegun : (x.begun i.round).isSome = true)
    (hfree : x.record i.round = none) (pairs : List (String × String)) :
    Course.Regular { x with campaign := some (c.register i pairs) } ∧
      ¬ Course.Stranded { x with campaign := some (c.register i pairs) } := by
  have hrecorded := h.recorded c hc
  refine ⟨⟨h.described, h.contiguous, nofun, fun c' hc' => ?_⟩, ?_⟩
  · cases hc'
    refine { hrecorded with registered := fun k hk => ?_, ended := fun k hk hle => ?_ }
    · by_cases hkn : k = i.round
      · exact hkn ▸ hbegun
      · rw [CampaignMetadata.register, Dict.get?_set_of_ne _ _ hkn] at hk
        exact hrecorded.registered k hk
    · have hle : k ≤ c.currentGeneration := hle
      have hne : k ≠ i.round := by omega
      rw [CampaignMetadata.register, Dict.get?_set_of_ne _ _ hne]
      exact hrecorded.ended k hk hle
  · have hnext : (c.register i pairs).currentGeneration + 1 = i.round := hn.symm
    rw [stranded_some rfl, hnext]
    rintro (hthere | ⟨-, hunknown⟩)
    · simp only [hfree] at hthere
      cases hthere
    · rw [CampaignMetadata.register, Dict.get?_set_self] at hunknown
      cases hunknown

/-- The next generation is there, and the campaign does not know it. -/
theorem regular_publish (h : x.Regular) (hc : x.campaign = some c)
    (hn : n = c.currentGeneration + 1) (hbegun : (x.begun n).isSome = true)
    (hr : r.Describes n) :
    Course.Regular { x with record := Function.update x.record n (some r) } ∧
      Course.Stranded { x with record := Function.update x.record n (some r) } := by
  have hrecorded := h.recorded c hc
  refine ⟨⟨fun k r' hk => ?_, fun k hk => ?_, fun hnone => ?_, fun c' hc' => ?_⟩, ?_⟩
  · by_cases hkn : k = n
    · subst hkn
      simp only [Function.update_self, Option.some.injEq] at hk
      exact hk ▸ hr
    · simp only [Function.update_of_ne hkn] at hk
      exact h.described k r' hk
  · by_cases hkn : k = n
    · subst hkn
      simp only [Function.update_self, Option.isSome_some]
    · simp only [Function.update_of_ne hkn]
      by_cases hlast : k + 1 = n
      · obtain rfl : k = c.currentGeneration := by omega
        exact hrecorded.current
      · simp only [Function.update_of_ne hlast] at hk
        exact h.contiguous k hk
  · simp only [hc] at hnone
    cases hnone
  · obtain rfl : c = c' := Option.some.inj (hc.symm.trans hc')
    have hne : c.currentGeneration ≠ n := by omega
    have hne' : c.currentGeneration + 2 ≠ n := by omega
    refine { hrecorded with current := ?_, bound := ?_, published := fun _ => hn ▸ hbegun }
    · simp only [Function.update_of_ne hne]
      exact hrecorded.current
    · simp only [Function.update_of_ne hne']
      exact hrecorded.bound
  · refine Iff.mpr (stranded_some hc) ?_
    rw [← hn]
    exact .inl (by simp only [Function.update_self, Option.isSome_some])

/-- The campaign comes to know the generation that it has published. -/
theorem regular_record (h : x.Regular) (hc : x.campaign = some c)
    (hn : n = c.currentGeneration + 1) (hthere : (x.record n).isSome = true)
    (entry : RoundEntry) (hstatus : entry.status = "complete") (hknown : (c.rounds.get? n).isSome)
    (campaign : CampaignMetadata) (hcampaign : campaign = { c with
      currentGeneration := n
      lineage := c.lineage ++ [⟨n, some (n - 1), some n⟩]
      rounds := c.rounds.set n entry
      pendingRepoFailPairs := none }) :
    Course.Regular { x with campaign := some campaign } ∧
      ¬ Course.Stranded { x with campaign := some campaign } := by
  have hrecorded := h.recorded c hc
  have hbound : x.record (n + 1) = none := hn ▸ hrecorded.bound
  have hbeyond : x.record (n + 2) = none := by
    cases hfar : x.record (n + 2) with
    | none => rfl
    | some r =>
      have hnear := h.contiguous (n + 1) (by rw [hfar]; rfl)
      rw [hbound] at hnear
      cases hnear
  have hunbegun : x.begun (n + 1) = none := by
    cases hfar : x.begun (n + 1) with
    | none => rfl
    | some parent =>
      obtain ⟨-, hle, -⟩ := hrecorded.begun (n + 1) parent hfar
      omega
  subst hcampaign
  refine ⟨⟨h.described, h.contiguous, nofun, fun c' hc' => ?_⟩, ?_⟩
  · cases hc'
    refine ⟨hrecorded.variant, ?_, hthere, hbeyond, fun k hk => ?_, fun k hk hle => ?_,
      fun k parent hk => ?_, fun hk => ?_⟩
    · subst hn
      simp only [hrecorded.lineage, lineageTo, Nat.add_sub_cancel]
    · by_cases hkn : k = n
      · exact hkn ▸ hrecorded.registered n hknown
      · simp only [Dict.get?_set_of_ne _ _ hkn] at hk
        exact hrecorded.registered k hk
    · by_cases hkn : k = n
      · exact ⟨entry, by simp only [hkn, Dict.get?_set_self], hstatus⟩
      · simp only [Dict.get?_set_of_ne _ _ hkn]
        have hle : k ≤ n := hle
        exact hrecorded.ended k hk (by omega)
    · obtain ⟨hpos, hle, hparent⟩ := hrecorded.begun k parent hk
      refine ⟨hpos, ?_, hparent⟩
      change k ≤ n + 1
      omega
    · simp only [hbound] at hk
      cases hk
  · rw [stranded_some rfl]
    rintro (hk | ⟨hk, -⟩)
    · simp only [hbound] at hk
      cases hk
    · simp only [hunbegun] at hk
      cases hk

end Steps

/-! ## The commands keep the course -/

section Keeps

variable {host : CampaignHost C} {m : CampaignManager} {i : RoundInput} {d : CampaignDisk C}
  {before : Prop} {c : CampaignMetadata}

/-- A write that leaves the course as it is. -/
theorem keeps_writes {step : CampaignStep} {f : CampaignDisk C → CampaignDisk C}
    (h : d.course.Regular) (hbefore : d.course.Stranded ↔ before)
    (hstep : step.exposed = false) (hsame : (f d).course = d.course) :
    KeepsCourse before (writes step f) d := by
  refine Durable.steady_effect h hbefore hstep fun _ t ht => ?_
  cases ht
  rw [hsame]
  exact ⟨h, Iff.rfl⟩

/-- A write and what comes behind it. -/
theorem keeps_writes_bind {α : Type} {step : CampaignStep}
    {f : CampaignDisk C → CampaignDisk C} {rest : Unit → CampaignProgram C α}
    (h : d.course.Regular) (hinv : (f d).course.Regular)
    (hstranded : (f d).course.Stranded ↔ before ∨ step.exposed = true)
    (hrest : KeepsCourse before (rest ()) (f d)) :
    KeepsCourse before (writes step f >>= rest) d := by
  refine Durable.steady_effect_bind h (fun e he => nomatch he) fun _ t ht => ?_
  cases ht
  exact ⟨hinv, hstranded, hrest⟩

theorem keeps_look_bind {α β : Type} {f : CampaignDisk C → Except Raised α}
    {rest : α → CampaignProgram C β} (h : d.course.Regular)
    (hbefore : d.course.Stranded ↔ before)
    (hrest : ∀ a, f d = .ok a → KeepsCourse before (rest a) d) :
    KeepsCourse before (Durable.look f >>= rest) d :=
  Durable.steady_look_bind h (fun _ _ => hbefore) hrest

theorem stranded_exposed {x : Course} {step : CampaignStep} (h : x.Stranded)
    (hstep : step.exposed = true) : x.Stranded ↔ before ∨ step.exposed = true :=
  iff_of_true h (.inr hstep)

theorem stranded_plain {x : Course} {step : CampaignStep} (h : x.Stranded ↔ before)
    (hstep : step.exposed = false) : x.Stranded ↔ before ∨ step.exposed = true := by
  rw [h, hstep]
  simp

theorem keeps_initializeCampaign (h : d.course.Regular) (hbefore : d.course.Stranded ↔ before) :
    KeepsCourse before (initializeCampaign host m) d := by
  refine keeps_look_bind h hbefore fun campaign hcampaign => ?_
  obtain rfl : d.campaign = campaign := Except.ok.inj hcampaign
  cases hnone : d.campaign with
  | some metadata =>
    simp only
    split
    · exact Durable.steady_raise _ h hbefore
    · exact Durable.steady_pure _ h hbefore
  | none =>
    have hstart : ¬ before ↔ d.generation 0 = none := by
      rw [← hbefore, stranded_none hnone]
      simp [CampaignDisk.course]
    refine Durable.steady_effect_bind h (fun _ _ => hbefore) fun _ t ht => ?_
    cases hzero : d.generation 0 with
    | some g => simp [hzero] at ht
    | none =>
      simp only [hzero, Except.ok.injEq, Prod.mk.injEq, true_and] at ht
      subst ht
      have hnot := hstart.mpr hzero
      have hfirst := regular_first (r := (initialGeneration host).record) h hnone
        ⟨rfl, rfl, rfl, rfl⟩
      rw [← course_setGeneration] at hfirst
      have hthere : ((d.setGeneration 0 (initialGeneration host)).course.record 0).isSome =
          true := by
        rw [course_setGeneration]
        simp only [Function.update_self, Option.isSome_some]
      refine ⟨hfirst, stranded_exposed ((stranded_none hnone).mpr hthere) rfl, ?_⟩
      obtain ⟨hregular, hfree⟩ := regular_initial (m := m) hfirst hnone hthere
      exact keeps_writes_bind hfirst hregular (iff_of_false hfree (by simp [hnot,
        CampaignStep.exposed])) (Durable.steady_pure _ hregular (iff_of_false hfree hnot))

theorem initialize_campaign {c : CampaignMetadata}
    (h : (initializeCampaign host m d).result = .ok c) :
    (initializeCampaign host m d).state.campaign = some c := by
  obtain ⟨campaign, hcampaign, hrest, hstate⟩ := Durable.bind_result h
  rw [initializeCampaign, hstate]
  obtain rfl : d.campaign = campaign := Except.ok.inj hcampaign
  cases hnone : d.campaign with
  | some metadata =>
    simp only [hnone] at hrest ⊢
    split at hrest
    · cases hrest
    · next hvariant =>
      rw [if_neg hvariant]
      cases hrest
      exact hnone
  | none =>
    simp only [hnone] at hrest ⊢
    obtain ⟨-, -, hlast, hend⟩ := Durable.bind_result hrest
    cases hlast
    rw [hend]
    rfl

/-- What `prepare_round` asks of the parent generation. -/
theorem checkParentGeneration_ok :
    checkParentGeneration host i c d = .ok () ↔
      1 ≤ i.round ∧ i.taskIds.find? unsafeTaskId = none ∧ ∃ g, d.parent i.round = some g ∧
        g.record.status = "complete" ∧ g.record.contentSha256 = host.hash g.content ∧
        i.round ≤ c.currentGeneration + 1 := by
  have hmap : ∀ (r : Except PyError Unit) (f : PyError → Raised),
      r.mapError f = .ok () ↔ r = .ok () := by
    intro r f
    cases r <;> simp [Except.mapError]
  rw [checkParentGeneration, hmap, checkParent]
  have hround : (i.round : Int) < 1 ↔ ¬ 1 ≤ i.round := by omega
  have hcurrent : (c.currentGeneration : Int) < i.round - 1 ↔
      ¬ i.round ≤ c.currentGeneration + 1 := by omega
  by_cases hpos : 1 ≤ i.round
  · rw [if_neg (by omega)]
    cases hunsafe : i.taskIds.find? unsafeTaskId with
    | some taskId => simp
    | none =>
      cases hparent : d.parent i.round with
      | none => simp
      | some g =>
        simp only [Option.map_some, Option.bind_some, GenerationRecord.read, Option.some.injEq,
          CampaignHost.hash]
        by_cases hstatus : g.record.status = "complete"
        · by_cases hhash :
              g.record.contentSha256 = treeHash host.sha256 [host.state g.content,
                host.skills g.content]
          · by_cases hle : i.round ≤ c.currentGeneration + 1
            · simp [hstatus, hhash, hcurrent, hle, hpos]
            · simp [hstatus, hhash, hcurrent, hle]
          · simp [hstatus, hhash]
        · simp [hstatus]
  · rw [if_pos (by omega)]
    simp [hpos]

theorem checkNewRound_ok {warnings : List String} {pairs : List (String × String)}
    (h : checkNewRound m i c = .ok (warnings, pairs)) : c.currentGeneration < i.round := by
  simp only [checkNewRound] at h
  split at h
  · cases h
  · omega

theorem keeps_resumeRound {existing : RoundMetadata} (h : d.course.Regular)
    (hbefore : d.course.Stranded ↔ before)
    (hexisting : (d.round i.round).metadata = some existing) :
    KeepsCourse before (resumeRound m i existing) d := by
  unfold resumeRound
  split
  · exact Durable.steady_raise _ h hbefore
  · split
    · exact Durable.steady_raise _ h hbefore
    · split
      · have hbegun : d.course.begun i.round = some existing.parentGeneration :=
          congrArg (Option.map RoundMetadata.parentGeneration) hexisting
        have hsame := course_rewritten d i.round { existing with
          warnings := existing.warnings ++ [resumeWarning] } hbegun rfl
        refine keeps_writes_bind h (hsame ▸ h) (stranded_plain (hsame ▸ hbefore) rfl)
          (Durable.steady_pure _ (hsame ▸ h) (hsame ▸ hbefore))
      · exact Durable.steady_pure _ h hbefore

theorem keeps_beginRound {warnings : List String} {pairs : List (String × String)}
    (h : d.course.Regular) (hbefore : d.course.Stranded ↔ before) (hc : d.campaign = some c)
    (hround : i.round = c.currentGeneration + 1) (hfree : (d.round i.round).metadata = none) :
    KeepsCourse before (beginRound m i c warnings pairs) d := by
  have hunbegun : d.course.begun i.round = none :=
    congrArg (Option.map RoundMetadata.parentGeneration) hfree
  have hunpublished : d.course.record i.round = none := by
    cases hthere : d.course.record i.round with
    | none => rfl
    | some r =>
      have hbegun := (h.recorded c hc).published (by rw [← hround, hthere]; rfl)
      rw [← hround, hunbegun] at hbegun
      cases hbegun
  have hnot : ¬ before := by
    rw [← hbefore, stranded_some hc, ← hround, hunpublished, hunbegun]
    simp
  -- the directory, and then the metadata that the campaign does not know
  have hmade := course_setRound d i.round
    (r := { d.round i.round with delta := some ((d.round i.round).delta.getD []) }) rfl
  refine keeps_writes_bind h (hmade ▸ h) (stranded_plain (hmade ▸ hbefore) rfl) ?_
  have hcourse := course_setMetadata (d.setRound i.round { d.round i.round with
    delta := some ((d.round i.round).delta.getD []) }) i.round (newRound m i warnings)
  rw [hmade] at hcourse
  obtain ⟨hregular, hstranded⟩ := regular_begin h hc hround hunbegun
  change _ = ({ d.course with
    begun := Function.update d.course.begun i.round (some (i.round - 1)) } : Course) at hcourse
  rw [← hcourse] at hregular hstranded
  refine keeps_writes_bind (hmade ▸ h) hregular (stranded_exposed hstranded rfl) ?_
  have hstatus := course_setStatus ((d.setRound i.round { d.round i.round with
    delta := some ((d.round i.round).delta.getD []) }).setMetadata i.round
      (newRound m i warnings)) i.round ⟨"running", []⟩
  refine keeps_writes_bind hregular (hstatus ▸ hregular)
    (stranded_exposed (hstatus ▸ hstranded) rfl) ?_
  -- the campaign follows
  obtain ⟨hlast, hfreed⟩ := regular_register (i := i) hregular hc hround
    (by rw [hcourse]; simp only [Function.update_self, Option.isSome_some])
    (by rw [hcourse]; exact hunpublished) pairs
  rw [← hstatus] at hlast hfreed hregular
  exact keeps_writes_bind hregular hlast
    (iff_of_false hfreed (by simp [hnot, CampaignStep.exposed]))
    (Durable.steady_pure _ hlast (iff_of_false hfreed hnot))

theorem keeps_prepareRound (h : d.course.Regular) (hbefore : d.course.Stranded ↔ before) :
    KeepsCourse before (prepareRound host m i) d := by
  refine keeps_look_bind h hbefore fun _ _ => keeps_look_bind h hbefore fun _ _ => ?_
  refine Durable.steady_bind (keeps_initializeCampaign h hbefore) fun c hresult h hbefore => ?_
  have hc := initialize_campaign hresult
  generalize (initializeCampaign host m d).state = t at h hbefore hc
  refine keeps_look_bind h hbefore fun _ hchecked => ?_
  obtain ⟨-, -, -, -, -, -, hle⟩ := checkParentGeneration_ok.mp hchecked
  refine keeps_look_bind h hbefore fun metadata hmetadata => ?_
  obtain rfl : (t.round i.round).metadata = metadata := Except.ok.inj hmetadata
  cases hexisting : (t.round i.round).metadata with
  | some existing => exact keeps_resumeRound h hbefore hexisting
  | none =>
    refine keeps_look_bind h hbefore fun ⟨warnings, pairs⟩ hnew => ?_
    have hlt := checkNewRound_ok hnew
    exact keeps_beginRound h hbefore hc (by omega) hexisting

/-! ### Tasks -/

theorem keeps_taskConfig {round : Nat} {taskId : String} (h : d.course.Regular)
    (hbefore : d.course.Stranded ↔ before) :
    KeepsCourse before (taskConfig host round taskId) d := by
  refine keeps_look_bind h hbefore fun _ _ => keeps_look_bind h hbefore fun branch _ => ?_
  cases branch with
  | some b => exact Durable.steady_pure _ h hbefore
  | none =>
    refine keeps_look_bind h hbefore fun content _ => ?_
    have hplaced := course_setBranch d round taskId ⟨content, false⟩
    refine keeps_writes_bind h (hplaced ▸ h) (stranded_plain (hplaced ▸ hbefore) rfl) ?_
    refine Durable.steady_effect (hplaced ▸ h) (hplaced ▸ hbefore) rfl fun _ t ht => ?_
    cases hown : host.relocate (.branch round taskId) content with
    | error e =>
      rw [hown] at ht
      cases ht
    | ok own =>
      rw [hown] at ht
      cases ht
      rw [course_setBranch]
      exact ⟨hplaced ▸ h, Iff.rfl⟩

theorem course_worked (round : Nat) (taskId : String) (change stray : C → C) :
    (d.worked round taskId change stray).course = d.course := by
  unfold CampaignDisk.worked
  split
  · rfl
  · next b hb =>
    simp only
    split
    · next n g _ hparent =>
      have hg : (d.setBranch (n + 1) taskId { b with
          content := change b.content }).generation n = some g := hparent
      rw [course_content _ _ hg, course_setBranch]
    · exact course_setBranch d _ taskId _

theorem keeps_workTask {round : Nat} {taskId : String} {change stray : C → C}
    (h : d.course.Regular) (hbefore : d.course.Stranded ↔ before) :
    KeepsCourse before (workTask round taskId change stray) d := by
  exact keeps_writes h hbefore rfl (course_worked round taskId change stray)

theorem keeps_performTasks {round : Nat} (actions : List (RoundAction C)) (h : d.course.Regular)
    (hbefore : d.course.Stranded ↔ before) :
    KeepsCourse before (performTasks host round actions) d := by
  induction actions generalizing d with
  | nil => exact Durable.steady_pure _ h hbefore
  | cons action actions ih =>
    refine Durable.steady_bind ?_ fun _ _ h hbefore => ih h hbefore
    cases action with
    | config taskId =>
      refine Durable.steady_bind (Durable.steady_attempt (keeps_taskConfig h hbefore))
        fun _ _ h hbefore => Durable.steady_pure _ h hbefore
    | work taskId change stray => exact keeps_workTask h hbefore

/-! ### The end of a round -/

/-- The registry of a generation can be read. -/
def CampaignHost.Inventoried (host : CampaignHost C) : Prop :=
  ∀ content, host.inventory content = .ok ()

theorem readInventory_ok (h : host.Inventoried) (generation : Option (Generation C)) :
    readInventory host generation = .ok () := by
  cases generation with
  | none => rfl
  | some g => exact h g.content

theorem keeps_noteErrors {round : Nat} {results : List TaskResult} (h : d.course.Regular)
    (hbefore : d.course.Stranded ↔ before) :
    KeepsCourse before (noteErrors round (d.round round).metadata results) d := by
  unfold noteErrors
  split
  · next metadata error errors hmetadata _ =>
    have hbegun : d.course.begun round = some metadata.parentGeneration :=
      congrArg (Option.map RoundMetadata.parentGeneration) hmetadata
    have hsame := course_rewritten d round { metadata with
      warnings := metadata.warnings ++ [errorWarning (error :: errors)] } hbegun rfl
    exact keeps_writes_bind h (hsame ▸ h) (stranded_plain (hsame ▸ hbefore) rfl)
      (Durable.steady_pure _ (hsame ▸ h) (hsame ▸ hbefore))
  · exact Durable.steady_pure _ h hbefore

/-- What `noteErrors` returns is what the round then has. -/
theorem noteErrors_ok {round : Nat} {results : List TaskResult}
    {old metadata : Option RoundMetadata} (hold : (d.round round).metadata = old)
    (h : (noteErrors round old results d).result = .ok metadata) :
    ((noteErrors round old results d).state.round round).metadata = metadata := by
  cases old with
  | none =>
    cases h
    exact hold
  | some old =>
    unfold noteErrors at h ⊢
    cases herrors : errorTasks results with
    | nil =>
      rw [herrors] at h
      cases h
      exact hold
    | cons error errors =>
      rw [herrors] at h
      cases h
      change ((d.setMetadata round _).round round).metadata = _
      rw [CampaignDisk.setMetadata, round_setRound, if_pos rfl]

/-- The campaign follows its next generation, or cannot and stays stranded. -/
theorem keeps_recordRound {round : Nat} (hread : host.Inventoried) (h : d.course.Regular)
    (hstranded : d.course.Stranded) (hc : d.course.campaign = some c)
    (hround : round = c.currentGeneration + 1) (hthere : (d.course.record round).isSome = true)
    (hbefore : c.rounds.get? round = none ↔ before) :
    KeepsCourse before (recordRound host round) d := by
  have hcampaign : d.campaign = some c := hc
  cases hentry : c.rounds.get? round with
  | none =>
    have herror : recordedCampaign round d = .error ⟨"KeyError", s!"'{round}'"⟩ := by
      simp only [recordedCampaign, hcampaign, hentry]
    refine Durable.steady_look_bind h (fun _ _ => iff_of_true hstranded (hbefore.mp hentry))
      fun campaign hok => ?_
    rw [herror] at hok
    cases hok
  | some entry =>
    have hnot : ¬ before := by
      rw [← hbefore, hentry]
      simp
    obtain ⟨hlast, hfreed⟩ := regular_record h hc hround hthere { entry with
      status := "complete"
      repoFailPairs := c.pendingRepoFailPairs.getD [] } rfl (by rw [hentry]; rfl) _ rfl
    refine Durable.steady_look_bind h (fun e he => ?_) fun campaign hok => ?_
    · simp only [recordedCampaign, hcampaign, hentry] at he
      cases he
    · simp only [recordedCampaign, hcampaign, hentry, Except.ok.injEq] at hok
      subst hok
      refine Durable.steady_look_bind h (fun e he => ?_) fun _ _ => ?_
      · rw [readInventory_ok hread] at he
        cases he
      · refine Durable.steady_look_bind h (fun e he => ?_) fun _ _ => ?_
        · rw [readInventory_ok hread] at he
          cases he
        · refine keeps_writes_bind h h (stranded_exposed hstranded rfl) ?_
          refine keeps_writes_bind h hlast
            (iff_of_false hfreed (by simp [hnot, CampaignStep.exposed])) ?_
          exact keeps_writes hlast (iff_of_false hfreed hnot) rfl rfl

theorem keeps_publishRound {round : Nat} {metadata : RoundMetadata} {content : C}
    (hread : host.Inventoried) (h : d.course.Regular) (hbefore : d.course.Stranded ↔ before)
    (hmetadata : (d.round round).metadata = some metadata) (hfree : d.generation round = none) :
    KeepsCourse before (publishRound host round metadata content) d := by
  have hbegun : d.course.begun round = some metadata.parentGeneration :=
    congrArg (Option.map RoundMetadata.parentGeneration) hmetadata
  have hunpublished : d.course.record round = none :=
    congrArg (Option.map Generation.record) hfree
  cases hc : d.course.campaign with
  | none =>
    have hno := (h.fresh hc).2 round
    rw [hbegun] at hno
    cases hno
  | some c =>
    have hround := h.next_of_begun hc hbegun hunpublished
    rw [stranded_some hc, ← hround, hunpublished, hbegun] at hbefore
    have hdescribes : (nextGeneration host round metadata content).record.Describes round := by
      refine ⟨rfl, ?_, ?_, rfl⟩
      · rw [if_neg (by omega)]
        rfl
      · rw [if_neg (by omega)]
        rfl
    obtain ⟨hregular, hstranded⟩ := regular_publish h hc hround (by rw [hbegun]; rfl) hdescribes
    rw [← course_setGeneration] at hregular hstranded
    have hcourse := course_setGeneration d round (nextGeneration host round metadata content)
    refine keeps_writes_bind h hregular (stranded_exposed hstranded rfl) ?_
    generalize d.setGeneration round (nextGeneration host round metadata content) = t
      at hregular hstranded hcourse
    -- neither the round's metadata nor its status matters to the course
    have hcompleted := course_rewritten t round { metadata with status := "complete" }
      (by rw [hcourse]; exact hbegun) rfl
    refine keeps_writes_bind hregular (hcompleted ▸ hregular)
      (stranded_exposed (hcompleted ▸ hstranded) rfl) ?_
    have hstatus := (course_setStatus (t.setMetadata round
      { metadata with status := "complete" }) round
        ⟨"complete", sortedTexts metadata.taskIds⟩).trans hcompleted
    refine keeps_writes_bind (hcompleted ▸ hregular) (hstatus ▸ hregular)
      (stranded_exposed (hstatus ▸ hstranded) rfl) ?_
    refine keeps_recordRound hread (hstatus ▸ hregular) (hstatus ▸ hstranded) ?_ hround ?_ ?_
    · rw [hstatus, hcourse]
      exact hc
    · rw [hstatus, hcourse]
      simp only [Function.update_self, Option.isSome_some]
    · simpa using hbefore

theorem keeps_finalizeRound {round : Nat} {results : List TaskResult} (hread : host.Inventoried)
    (h : d.course.Regular) (hbefore : d.course.Stranded ↔ before) :
    KeepsCourse before (finalizeRound host round results) d := by
  refine keeps_look_bind h hbefore fun metadata hmetadata => ?_
  obtain rfl : (d.round round).metadata = metadata := Except.ok.inj hmetadata
  refine keeps_look_bind h hbefore fun _ _ => ?_
  refine Durable.steady_bind (keeps_noteErrors h hbefore) fun metadata hresult h hbefore => ?_
  have hnoted := noteErrors_ok rfl hresult
  generalize (noteErrors round (d.round round).metadata results d).state = t at h hbefore hnoted
  refine keeps_look_bind h hbefore fun generation hgeneration => ?_
  obtain rfl : t.generation round = generation := Except.ok.inj hgeneration
  cases hfree : t.generation round with
  | some destination =>
    simp only
    split
    · exact Durable.steady_pure _ h hbefore
    · exact Durable.steady_raise _ h hbefore
  | none =>
    refine keeps_look_bind h hbefore fun content _ => ?_
    cases metadata with
    | none => exact Durable.steady_raise _ h hbefore
    | some metadata => exact keeps_publishRound hread h hbefore hnoted hfree

/-- The command keeps the course of the campaign, wherever it is cut short; it strands it just
behind the effects that the campaign's metadata has yet to follow. -/
theorem keeps_benchmarkRun (hread : host.Inventoried) (i : RoundCommand C) (h : d.course.Regular) :
    KeepsCourse d.course.Stranded (benchmarkRun host i) d :=
  Durable.steady_bind (keeps_prepareRound h Iff.rfl) fun _ _ h hbefore =>
    Durable.steady_bind (keeps_performTasks i.tasks h hbefore) fun _ _ h hbefore =>
      keeps_finalizeRound hread h hbefore

end Keeps

end EvoCI
