import Coedit.Proofs.DrainingRounds

/-!
Draining delivers the whole queue. The server commits the one request that is under way and answers
(`Underway.stepDelivery`), so that no step of a task loses what was handed over
(`Undisturbed.underway`). Once all senders have finished, nothing waits, and the requests were the
joined groups of the patches in order (`all_delivered`).
-/
namespace Coedit.Session

variable {s t first : State} {file : FileId} {box index : Nat} {sender : Sender}
  {ps requests rest : List Patch} {groups : List (List Patch)} {text next result : Text}
  {ledgers : Nat → Ledger}

/-! ### The notifier and the deliveries -/

theorem Underway.stepNotifier (h : Underway first file box ps s) :
    Underway first file box ps s.stepNotifier := by
  unfold State.stepNotifier
  rcases h.notifier with hphase | hphase
  · rw [hphase]
    exact h.same rfl rfl rfl (.inr rfl) rfl rfl rfl rfl rfl rfl
  · rw [hphase, h.notifications]
    exact h.same rfl rfl rfl (.inl rfl) h.notifications.symm rfl rfl rfl rfl rfl

theorem State.getElem?_setDelivery {d : Delivery} (hd : s.deliveries[index]? = some d)
    (phase : DeliveryPhase) (other : Nat) : (s.setDelivery index phase).deliveries[other]? =
      if other = index then some { d with phase } else s.deliveries[other]? := by
  by_cases hother : other = index
  · subst hother
    simp [State.setDelivery, hd]
  · simp [State.setDelivery, hother, Ne.symm hother]

/-- A delivery that goes on leaves no other one submitted. -/
theorem eq_of_submitted {moved : Delivery} {phase : DeliveryPhase} {delivery other : Nat}
    (hphase : phase ≠ .submitted)
    (honly : ∀ (other : Nat) (d : Delivery), s.deliveries[other]? = some d →
      d.phase = .submitted → other = delivery)
    (hmoved : (s.setDelivery index phase).deliveries[other]? = some moved)
    (hsubmitted : moved.phase = .submitted) : other = delivery :=
  honly other moved (State.of_submitted_setDelivery hmoved hsubmitted hphase).2 hsubmitted

/-- An answer that was held back arrives. -/
theorem Flight.arrive {d : Delivery} {answer : Except SendError Response}
    (h : Flight first file box s requests rest text) (hd : s.deliveries[index]? = some d)
    (hwithheld : d.phase = .withheld answer)
    (hdeliveries : t.deliveries = (s.setDelivery index (.answered answer)).deliveries)
    (hsenders : t.senders = s.senders) (houtboxes : t.outboxes = s.outboxes)
    (hserver : t.server = s.server) (hrequests : t.record.requests = s.record.requests) :
    Flight first file box t requests rest text := by
  have hphase := State.phase_congr hsenders
  have houtbox := congrFun (State.outbox_congr houtboxes) box
  cases h with
  | ashore hnone hsubmitted hlevel =>
    refine .ashore (fun other => hphase ▸ hnone other) (fun other d hother hmoved => ?_)
      (hlevel.kept hserver hrequests)
    rw [hdeliveries, State.getElem?_setDelivery hd] at hother
    split at hother
    · obtain rfl := Option.some.inj hother
      cases hmoved
    · exact hsubmitted other d hother hmoved
  | @aboard _ delivery _ _ _ _ _ phase hwaits hdelivery honly hcount hbatch hsent hleg =>
    have honly' (other : Nat) (d : Delivery) (hother : t.deliveries[other]? = some d) :=
      eq_of_submitted DeliveryPhase.noConfusion honly (hdeliveries ▸ hother)
    have hthere := State.getElem?_setDelivery hd (.answered answer) delivery
    rw [← hdeliveries] at hthere
    by_cases hself : delivery = index
    · subst hself
      obtain rfl := Option.some.inj (hdelivery.symm.trans hd)
      obtain rfl : phase = .withheld answer := hwithheld
      rw [if_pos rfl] at hthere
      refine .aboard (hsenders ▸ hwaits) hthere honly' (houtbox ▸ hcount) hbatch hsent ?_
      cases hleg with
      | held hversion hlevel => exact .back hversion (hlevel.kept hserver hrequests)
    · rw [if_neg hself] at hthere
      exact .aboard (hsenders ▸ hwaits) (hthere.trans hdelivery) honly' (houtbox ▸ hcount) hbatch
        hsent (hleg.kept hserver hrequests)

/-- The server commits what it is sent, and says so. -/
theorem State.commitRequest_eq {server : Server} {f : ServerFile} {p sent : Patch} (id : Uuid)
    (hfile : server.file file = f) (hsent : sent = p.rebased f.version) (hsend : sent.Sendable)
    (h : p.Leads f.text next) (hserver : s.server = server) :
    s.commitRequest (Request.ofPatch id file sent) =
      ({ s with server := server.set file ⟨next, f.history ++ [sent]⟩ },
        .ok (Response.committed id (f.version + 1 : Nat) [])) := by
  subst hserver
  have hparse : (Request.ofPatch id file sent).patch = .ok sent := Patch.parse_render hsend
  have hhome : (Request.ofPatch id file sent).file = file := rfl
  have hid : (Request.ofPatch id file sent).requestId = id := rfl
  have hcommit : (s.server.file file).commit sent = .ok (⟨next, f.history ++ [sent]⟩, []) := by
    rw [hfile, hsent]
    exact ServerFile.commit_eq h
  have hversion : ServerFile.version ⟨next, f.history ++ [sent]⟩ = f.version + 1 :=
    List.length_append
  simp only [State.commitRequest, hparse, hhome, hid, hcommit, hversion]

/-- What a round asks for can be sent. -/
theorem Batch.sendable {threshold count : Nat} {joined : Patch}
    (h : Batch threshold rest text count joined next)
    (hdelivered : Delivered first file groups requests text)
    (hps : (first.server.file file).Takes (groups.flatten ++ rest) result) :
    (joined.rebased ((first.server.file file).version + requests.length : Nat)).Sendable := by
  obtain ⟨here, htakes, -⟩ := hps.of_append
  obtain rfl : here = text :=
    Except.ok.inj (htakes.sequential.applyAll_eq.symm.trans hdelivered.sequential.applyAll_eq)
  have hleads : (joined.rebased ((first.server.file file).version + requests.length : Nat)).Leads
      here next := ⟨h.leads.free, h.leads.returnFree, h.leads.rewrites, h.leads.docLength⟩
  have hnext : next.length < Numeral.wordLimit := by
    rw [← List.take_append_drop count rest, ← List.append_assoc] at hps
    obtain ⟨there, hthere, -⟩ := hps.of_append
    obtain rfl : there = next := Except.ok.inj (hthere.sequential.applyAll_eq.symm.trans
      (hdelivered.sequential.append h.sequential).applyAll_eq)
    exact hthere.length_after
  refine hleads.sendable h.simplified (Numeral.fits_of_le ?_ hps.version) htakes.length_after hnext
  have hle := hdelivered.requested.length_le fun group hgroup => (hdelivered.bounded group hgroup).1
  rw [List.length_append]
  omega

/-- A request that the server is to commit is noted. Its answer comes at once or is held back. -/
theorem State.stepDelivery_commit {d : Delivery} {delay : Nat} {server : Server}
    {answer : Except SendError Response} (hphase : d.phase = .submitted)
    (hreply : s.replies.headD .standard = .mk [] delay .commit)
    (hcommit : ∀ {u : State}, u.server = s.server →
      u.commitRequest d.request = ({ u with server }, answer)) (index : Nat) :
    ∃ record ready timers phase,
      s.stepDelivery index d =
        { s.setDelivery index phase with
          server, replies := s.replies.tail, record, ready, timers } ∧
      record.requests = s.record.requests ++ [(d.request.file, d.request.patchText)] ∧
      (phase = .answered answer ∨ phase = .withheld answer) := by
  simp only [State.stepDelivery, hphase, hreply, State.performNested, performAll,
    State.answerRequest]
  rw [hcommit (by exact rfl)]
  dsimp only
  split
  · obtain ⟨ready, harrive, -⟩ := arrive_eq _ index d.sender answer
    rw [harrive]
    exact ⟨_, _, _, _, rfl, rfl, .inl rfl⟩
  · exact ⟨_, _, _, _, rfl, rfl, .inr rfl⟩

/-- The one request that is submitted is committed. -/
theorem Underway.stepSubmitted {d : Delivery} (h : Underway first file box ps s)
    (hps : (first.server.file file).Takes ps result) (hd : s.deliveries[index]? = some d)
    (hphase : d.phase = .submitted) : Underway first file box ps (s.stepDelivery index d) := by
  obtain ⟨groups, requests, rest, text, hprogress⟩ := h.progress
  have hcovers := hprogress.covers
  cases hprogress.flight with
  | ashore _ hsubmitted => exact absurd hphase (hsubmitted index d hd)
  | @aboard carrier delivery count _ joined sent next phase hwaits hdelivery honly hcount hbatch
      hsent hleg =>
    obtain rfl := honly index d hd hphase
    have hself := Option.some.inj (hdelivery.symm.trans hd)
    obtain rfl : phase = .submitted := (congrArg Delivery.phase hself).trans hphase
    have hrequest : d.request = Request.ofPatch (Uuid.ofNat index) file sent :=
      (congrArg Delivery.request hself).symm
    cases hleg with
    | outbound hlevel =>
      obtain ⟨delay, hreply⟩ : (s.replies.headD .standard).Commits := by
        cases hreplies : s.replies with
        | nil => exact ⟨0, rfl⟩
        | cons reply more => exact h.replies reply (hreplies ▸ List.mem_cons_self)
      have hversion : ServerFile.version ⟨text, (first.server.file file).history ++ requests⟩ =
          (first.server.file file).version + requests.length := List.length_append
      have hcommit {u : State} := u.commitRequest_eq (Uuid.ofNat index) hlevel.server
        (hversion ▸ hsent) (hsent ▸ hbatch.sendable hprogress.delivered (hcovers ▸ hps))
        hbatch.leads
      rw [← hrequest, hversion] at hcommit
      obtain ⟨record, ready, timers, phase, hstep, hrecord, hanswer⟩ :=
        State.stepDelivery_commit hphase hreply hcommit index
      generalize s.stepDelivery index d = t at hstep ⊢
      have hlevel' : Level first file t (requests ++ [sent]) next := by
        subst hstep
        refine ⟨?_, ?_⟩
        · simp [Server.file]
        · simp only [hrecord, hlevel.requests, hrequest, List.map_append, List.append_assoc]
          rfl
      have hnow : phase ≠ .submitted := by
        rcases hanswer with rfl | rfl <;> exact DeliveryPhase.noConfusion
      have hdeliveries : t.deliveries = (s.setDelivery index phase).deliveries := by rw [hstep]
      have hsenders : t.senders = s.senders := by rw [hstep]; rfl
      have houtboxes : t.outboxes = s.outboxes := by rw [hstep]; rfl
      have hthere : t.deliveries[index]? =
          some ⟨Request.ofPatch (Uuid.ofNat index) file sent, carrier, phase⟩ := by
        rw [hdeliveries, State.getElem?_setDelivery hd, if_pos rfl, ← hself]
      refine h.kept (by rw [hstep]; rfl) (by rw [hstep]; rfl) houtboxes
        (by rw [hstep]; exact h.notifier) (by rw [hstep]; rfl)
        (fun reply hmem => List.mem_of_mem_tail (by rwa [hstep] at hmem)) hsenders hprogress ?_
      refine .aboard (hsenders ▸ hwaits) hthere (fun other d hother => ?_)
        (congrFun (State.outbox_congr houtboxes) box ▸ hcount) hbatch hsent ?_
      · exact eq_of_submitted hnow honly (hdeliveries ▸ hother)
      · rcases hanswer with rfl | rfl
        · exact .back rfl hlevel'
        · exact .held rfl hlevel'

/-- A delivery goes on, and nothing that was handed over is lost. -/
theorem Underway.stepDelivery {d : Delivery} (h : Underway first file box ps s)
    (hps : (first.server.file file).Takes ps result) (hd : s.deliveries[index]? = some d) :
    Underway first file box ps (s.stepDelivery index d) := by
  cases hphase : d.phase with
  | submitted => exact h.stepSubmitted hps hd hphase
  | withheld answer =>
    simp only [State.stepDelivery, hphase]
    obtain ⟨ready, harrive, -⟩ := arrive_eq s index d.sender answer
    rw [harrive]
    obtain ⟨groups, requests, rest, text, hprogress⟩ := h.progress
    exact h.kept rfl rfl rfl h.notifier rfl (fun _ => id) rfl hprogress
      (hprogress.flight.arrive hd hphase rfl rfl rfl rfl rfl)
  | answered | lost =>
    simp only [State.stepDelivery, hphase]
    exact h

/-! ### The whole run -/

theorem Underway.stepTask {task : TaskId} (h : Underway first file box ps s)
    (hslots : Slots s ledgers) (hbox : box < s.outboxes.length)
    (hps : (first.server.file file).Takes ps result) (hpos : 1 ≤ first.settings.writeThreshold)
    (hin : s.inTime task = true) : Underway first file box ps (s.stepTask task) := by
  cases task with
  | notifier => exact h.stepNotifier
  | sender index =>
    unfold State.stepTask
    dsimp only
    cases hs : s.senders[index]? with
    | none => exact h
    | some sender => exact h.stepSender hslots hbox hps hpos hin hs
  | delivery index =>
    unfold State.stepTask
    dsimp only
    cases hd : s.deliveries[index]? with
    | none => exact h
    | some d => exact h.stepDelivery hps hd

theorem Underway.mention (h : Underway first file box ps s) (other : FileId) :
    Underway first file box ps (s.mention other) := by
  have hrequests : (s.mention other).record.requests = s.record.requests := by
    unfold State.mention
    split <;> rfl
  obtain ⟨record, hmention⟩ := s.mention_eq other
  rw [hmention] at hrequests ⊢
  exact h.same rfl rfl rfl h.notifier rfl rfl rfl rfl rfl hrequests

theorem Undisturbed.orderly {r t : Traced} (h : Undisturbed file box r ps t)
    (hr : Orderly r.state r.ledgers) : Orderly t.state t.ledgers := by
  induction h with
  | rest => exact hr
  | hand more _ _ ih => exact ih.happen (.act (.send file (.ok more)))
  | edit other diffs version _ ih => exact ih.happen (.act (.editUnsent other diffs version))
  | run task _ _ ih => exact ih.happen (.run task)
  | tick time _ ih => exact ih.happen (.tick time)

/-- Whether the answers are there in time while tasks run one after another. -/
def Traced.inTime (t : Traced) : List TaskId → Bool
  | [] => true
  | task :: more => t.state.inTime task && (t.happen (.run task)).inTime more

theorem Undisturbed.runs {r t : Traced} {tasks : List TaskId} (h : Undisturbed file box r ps t)
    (hin : t.inTime tasks = true) : Undisturbed file box r ps (t.after (tasks.map .run)) := by
  induction tasks generalizing t with
  | nil => exact h
  | cons task more ih =>
    rw [Traced.inTime, Bool.and_eq_true] at hin
    exact ih (h.run task hin.1) hin.2

/-- Whatever happens, nothing that was handed over is lost. -/
theorem Undisturbed.underway {r t : Traced} (h : Undisturbed file box r ps t)
    (hr : Orderly r.state r.ledgers) (hrest : AtRest r.state file box)
    (hpos : 1 ≤ r.state.settings.writeThreshold)
    (hps : (r.state.server.file file).Takes ps result) : Underway r.state file box ps t.state := by
  induction h generalizing result with
  | rest => exact hrest.underway
  | @hand ps t more hbefore hmore ih =>
    obtain ⟨text, hfirst, -⟩ := hps.of_append
    have hunder := ih hfirst
    have hmentioned := hunder.mention file
    have hbox := (hbefore.orderly hr).housed.tracks.known hunder.tracked
    obtain ⟨record, hmention⟩ := t.state.mention_eq file
    simp only [Traced.happen, State.happen, perform]
    rw [hmention] at hmentioned ⊢
    exact hmentioned.hand hbox hmore
  | @edit ps t other diffs version _ ih =>
    have hmentioned := (ih hps).mention other
    simp only [Traced.happen, State.happen, perform]
    exact hmentioned.same rfl rfl rfl hmentioned.notifier rfl rfl rfl rfl rfl rfl
  | @run ps t task hbefore hin ih =>
    have ho := hbefore.orderly hr
    have hunder := ih hps
    simp only [Traced.happen, State.happen]
    split
    · have hstep := hunder.stepTask ho.slots (ho.housed.tracks.known hunder.tracked) hps hpos hin
      obtain ⟨ready, hsettle, -⟩ := (t.state.stepTask task).settle_eq task
      rw [hsettle]
      exact hstep.same rfl rfl rfl hstep.notifier rfl rfl rfl rfl rfl rfl
    · exact hunder
  | @tick ps t time _ ih =>
    have hunder := ih hps
    obtain ⟨woken, hjump, -⟩ := t.state.jump_eq time
    simp only [Traced.happen, State.happen, hjump]
    exact hunder.same rfl rfl rfl hunder.notifier rfl rfl rfl rfl rfl rfl

/-- Once all senders have finished, nothing waits and nothing is under way. -/
theorem Underway.finished (h : Underway first file box ps s)
    (hdone : ∀ sender ∈ s.senders, ∃ ending, sender.phase = .finished ending) :
    ∃ groups requests text, ps = groups.flatten ∧ Delivered first file groups requests text ∧
      (s.outbox box).incoming = [] ∧ (s.outbox box).queue = [] ∧
      (s.outbox box).version = ((first.server.file file).version + requests.length : Nat) ∧
      Level first file s requests text := by
  have hnone : (s.outbox box).hasPending = false := by
    rw [Bool.eq_false_iff]
    intro hwaits
    obtain ⟨index, sender, hs, -, hattends⟩ := h.attended hwaits
    obtain ⟨ending, hphase⟩ := hdone sender (List.mem_of_getElem? hs)
    rw [hphase] at hattends
    rcases hattends with hattends | hattends <;> cases hattends
  obtain ⟨groups, requests, rest, text, rfl, hdelivered, hholds, hversion, hflight⟩ := h.progress
  obtain rfl := hholds.hasPending_eq_false_iff.mp hnone
  obtain ⟨hincoming, hqueue⟩ := (Outbox.hasPending_eq_false_iff _).mp hnone
  refine ⟨groups, requests, text, List.append_nil _, hdelivered, hincoming, hqueue, hversion, ?_⟩
  cases hflight with
  | ashore _ _ hlevel => exact hlevel
  | aboard hwaits =>
    obtain ⟨ending, hphase⟩ := hdone _ (List.mem_of_getElem? hwaits)
    cases hphase

/-- Draining delivers the whole queue. Patches are handed to a session at rest, and the server hears
of nobody else and commits what it is asked. Once all senders have finished, nothing waits. The
server has the text that the patches make of its own. It was asked for groups of at most the
threshold, in order, joined and under the version that it had then, but not for groups that change
nothing. -/
theorem all_delivered (settings : Settings) (files : List FileSetup) (prior : List Event)
    {t : Traced}
    (hrest : AtRest ((Traced.start settings files).after prior).state file box)
    (hpos : 1 ≤ ((Traced.start settings files).after prior).state.settings.writeThreshold)
    (hps : (((Traced.start settings files).after prior).state.server.file file).Takes ps result)
    (hrun : Undisturbed file box ((Traced.start settings files).after prior) ps t)
    (hdone : ∀ sender ∈ t.state.senders, ∃ ending, sender.phase = .finished ending) :
    let r := (Traced.start settings files).after prior
    let f := r.state.server.file file
    ∃ groups requests, groups.flatten = ps ∧
      (∀ group ∈ groups, group ≠ [] ∧ group.length ≤ r.state.settings.writeThreshold) ∧
      Patch.Requested f.version groups requests ∧
      (∀ (k : Nat) request, requests[k]? = some request →
        request.baseVersion = (f.version + k : Nat)) ∧
      t.state.record.requests =
        r.state.record.requests ++ requests.map (fun request => (file, request.render)) ∧
      t.state.server.file file = ⟨result, f.history ++ requests⟩ ∧
      Patch.applyAll f.text ps = .ok result ∧
      (t.state.outbox box).incoming = [] ∧ (t.state.outbox box).queue = [] ∧
      (t.state.outbox box).version = (f.version + requests.length : Nat) ∧
      ∀ index sender, r.state.senders.length ≤ index → t.state.senders[index]? = some sender →
        sender.phase = .finished (.ok ()) := by
  have hunder := hrun.underway (orderly_after settings files prior) hrest hpos hps
  obtain ⟨groups, requests, text, rfl, hdelivered, hincoming, hqueue, hversion, hlevel⟩ :=
    hunder.finished hdone
  obtain rfl : text = result :=
    Except.ok.inj (hdelivered.sequential.applyAll_eq.symm.trans hps.sequential.applyAll_eq)
  refine ⟨groups, requests, rfl, hdelivered.bounded, hdelivered.requested,
    fun k request hk => hdelivered.requested.baseVersion hk, hlevel.requests, hlevel.server,
    hps.sequential.applyAll_eq, hincoming, hqueue, hversion, ?_⟩
  intro index sender hnew hs
  obtain ⟨ending, hphase⟩ := hdone sender (List.mem_of_getElem? hs)
  rcases hunder.senders hs with ⟨hold, -⟩ | ⟨-, hships⟩
  · exact absurd hold (Nat.not_lt.mpr hnew)
  · rw [hphase] at hships ⊢
    rcases ending with error | _
    · exact hships.elim
    · rfl

/-- A session that is handed patches on three occasions: one that is sent, two that take each other
back and come in while its request is under way, and one more after they are dropped. -/
def Traced.drained : Traced :=
  let hand := fun (t : Traced) (patches : List Patch) =>
    t.happen (.act (.send ⟨['f']⟩ (.ok patches)))
  let run := fun (t : Traced) (tasks : List TaskId) => t.after (tasks.map .run)
  let first := Traced.start { writeThreshold := 2 } [⟨⟨['f']⟩, ['a', 'b'], some 0, ['a', 'b']⟩]
  let asked := run (hand first [.forDocument 0 [.insertion 2 ['c']] 2])
    [.sender 0, .sender 0, .sender 0]
  let answered := run (hand asked
    [.forDocument 0 [.insertion 0 ['x']] 3, .forDocument 0 [.deletion 0 ['x']] 4])
    [.sender 1, .sender 1, .delivery 0, .sender 0, .sender 0, .sender 0, .sender 0, .sender 0]
  run (hand answered [.forDocument 1 [.insertion 3 ['d']] 3])
    [.sender 2, .sender 2, .sender 2, .delivery 1, .sender 2, .sender 2]

theorem all_delivered_taken_back :
    let ps : List Patch := [.forDocument 0 [.insertion 2 ['c']] 2,
      .forDocument 0 [.insertion 0 ['x']] 3, .forDocument 0 [.deletion 0 ['x']] 4,
      .forDocument 1 [.insertion 3 ['d']] 3]
    ∃ groups requests, groups.flatten = ps ∧ Patch.Requested 0 groups requests ∧
      requests.length = 2 ∧
      Traced.drained.state.server.file ⟨['f']⟩ = ⟨['a', 'b', 'c', 'd'], requests⟩ ∧
      (Traced.drained.state.outbox 0).incoming = [] ∧
      (Traced.drained.state.outbox 0).queue = [] := by
  intro ps
  let first := Traced.start { writeThreshold := 2 } [⟨⟨['f']⟩, ['a', 'b'], some 0, ['a', 'b']⟩]
  have hrest : AtRest first.state ⟨['f']⟩ 0 :=
    ⟨rfl, rfl, rfl, nofun, nofun, .inl rfl, rfl, nofun⟩
  have hseq : Patch.Sequential ['a', 'b'] ps ['a', 'b', 'c', 'd'] :=
    .cons ⟨0, _, rfl⟩ (by decide) rfl (.cons ⟨0, _, rfl⟩ (by decide) rfl
      (.cons ⟨0, _, rfl⟩ (by decide) rfl (.cons ⟨1, _, rfl⟩ (by decide) rfl (.nil _))))
  have htakes : (first.state.server.file ⟨['f']⟩).Takes ps ['a', 'b', 'c', 'd'] :=
    ⟨by decide +kernel, hseq, by decide +kernel, by decide +kernel, by decide +kernel⟩
  have hrun : Undisturbed ⟨['f']⟩ 0 first ps Traced.drained :=
    .runs (.hand [_] (.runs (.hand [_, _] (.runs (.hand [_] .rest (by decide +kernel))
      (by decide +kernel)) (by decide +kernel)) (by decide +kernel)) (by decide +kernel))
      (by decide +kernel)
  have hsenders : Traced.drained.state.senders = [⟨⟨['f']⟩, .finished (.ok ())⟩,
      ⟨⟨['f']⟩, .finished (.ok ())⟩, ⟨⟨['f']⟩, .finished (.ok ())⟩] := by
    with_unfolding_all rfl
  have hversion : (Traced.drained.state.outbox 0).version = 2 := by decide +kernel
  obtain ⟨groups, requests, hgroups, -, hrequested, -, -, hserver, -, hincoming, hqueue, hlater,
      -⟩ :=
    all_delivered { writeThreshold := 2 } [⟨⟨['f']⟩, ['a', 'b'], some 0, ['a', 'b']⟩] []
      hrest (by decide) htakes hrun (by rw [hsenders]; simp)
  refine ⟨groups, requests, hgroups, hrequested, ?_, hserver, hincoming, hqueue⟩
  have hlength : (2 : Int) = (0 + requests.length : Nat) := hversion.symm.trans hlater
  omega

end Coedit.Session
