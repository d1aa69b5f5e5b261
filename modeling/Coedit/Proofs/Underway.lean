import Coedit.Proofs.Batches
import Coedit.Proofs.Runs

/-!
How far a session has come that is handed patches while the server hears of nobody else. Everything
that was handed over is delivered, under way in one request, or still waits (`Underway`). It stays
so when more is handed over (`Underway.hand`) and when a sender moves and leaves the patches where
they are (`Underway.moved`).
-/
namespace Coedit

/-- A file on the server takes patches made one after another. Their texts and their versions fit
the numbers of the wire. -/
structure ServerFile.Takes (f : ServerFile) (ps : List Patch) (result : Text) : Prop where
  free : '\r' ∉ f.text
  sequential : Patch.Sequential f.text ps result
  length : f.text.length < Numeral.wordLimit
  docLength : ∀ p ∈ ps, p.docLength < Numeral.wordLimit
  version : Numeral.fits (f.version + ps.length : Nat) = true

theorem Numeral.fits_of_le {m n : Nat} (h : m ≤ n) (hn : fits n = true) : fits m = true := by
  unfold fits leastInt greatestInt at *
  rw [Bool.and_eq_true, decide_eq_true_eq, decide_eq_true_eq] at *
  omega

namespace ServerFile.Takes

variable {f : ServerFile} {ps more : List Patch} {result text : Text}

theorem of_append (h : f.Takes (ps ++ more) result) :
    ∃ text, f.Takes ps text ∧ Patch.Sequential text more result := by
  obtain ⟨text, hps, hmore⟩ := h.sequential.of_append
  refine ⟨text, ⟨h.free, hps, h.length, fun p hp => h.docLength p (List.mem_append_left _ hp), ?_⟩,
    hmore⟩
  refine Numeral.fits_of_le ?_ h.version
  rw [List.length_append]
  omega

theorem free_after (h : f.Takes ps text) : '\r' ∉ text := h.sequential.free_after h.free

theorem length_after (h : f.Takes ps text) : text.length < Numeral.wordLimit := by
  rcases List.eq_nil_or_concat ps with rfl | ⟨before, last, rfl⟩
  · cases h.sequential
    exact h.length
  · have hlast := h.sequential.docLength_getLast h.free (by simp)
    have hlt := h.docLength last (by simp)
    simp only [List.concat_eq_append, List.getLast_append_singleton] at hlast
    exact hlast ▸ hlt

end ServerFile.Takes

namespace Session

variable {s t first : State} {file : FileId} {box index : Nat} {sender : Sender}
  {ps requests rest : List Patch} {groups : List (List Patch)} {text next result : Text}
  {ledgers : Nat → Ledger}

/-- A reply with which the server commits, sooner or later. -/
def Reply.Commits (reply : Reply) : Prop := ∃ delay, reply = .mk [] delay .commit

/-- A session in which an open file has nothing left to send and nothing is under way. -/
structure AtRest (s : State) (file : FileId) (box : Nat) : Prop where
  tracked : s.tracked.get? file = some box
  sent : (s.outbox box).hasPending = false
  level : (s.outbox box).version = (s.server.file file).version
  finished : ∀ sender ∈ s.senders, ∃ result, sender.phase = .finished result
  arrived : ∀ delivery ∈ s.deliveries, delivery.phase ≠ .submitted
  notifier : s.notifier = .idle ∨ s.notifier = .receiving
  notifications : s.notifications = []
  replies : ∀ reply ∈ s.replies, reply.Commits

/-- A sender whose time is over has its answer by now. -/
def State.inTime (s : State) : TaskId → Bool
  | .sender index =>
    match s.phase index with
    | .awaiting _ delivery _ _ deadline => s.clock < deadline || (s.answer? delivery).isSome
    | _ => true
  | _ => true

/-- Patches of a file are handed over, made on what the document contained then or before; tasks run
in any order, time passes and documents are edited. Nothing else happens. -/
inductive Undisturbed (file : FileId) (box : Nat) (r : Traced) : List Patch → Traced → Prop
  | rest : Undisturbed file box r [] r
  | hand {ps : List Patch} {t : Traced} (more : List Patch) : Undisturbed file box r ps t →
      (∀ p ∈ more, p.baseVersion ≤ (t.state.outbox box).version) →
      Undisturbed file box r (ps ++ more) (t.happen (.act (.send file (.ok more))))
  | edit {ps : List Patch} {t : Traced} (file' : FileId) (diffs : List Diff)
      (version : Option Int) : Undisturbed file box r ps t →
      Undisturbed file box r ps (t.happen (.act (.editUnsent file' diffs version)))
  | run {ps : List Patch} {t : Traced} (task : TaskId) : Undisturbed file box r ps t →
      t.state.inTime task = true → Undisturbed file box r ps (t.happen (.run task))
  | tick {ps : List Patch} {t : Traced} (time : Nat) : Undisturbed file box r ps t →
      Undisturbed file box r ps (t.happen (.tick time))

/-- The phases of a sender whose requests are all committed. -/
def SenderPhase.Ships (box : Nat) : SenderPhase → Prop
  | .starting | .finished (.ok ()) => True
  | .claiming held | .queued held | .opening held | .awaiting held .. | .closing held (.ok ()) =>
    held = box
  | _ => False

/-- The server and the record of requests are as far as these requests. -/
structure Level (first : State) (file : FileId) (s : State) (requests : List Patch) (text : Text) :
    Prop where
  server : s.server.file file = ⟨text, (first.server.file file).history ++ requests⟩
  requests : s.record.requests =
    first.record.requests ++ requests.map fun request => (file, request.render)

/-- What has been delivered: groups of the patches, joined to the requests. -/
structure Delivered (first : State) (file : FileId) (groups : List (List Patch))
    (requests : List Patch) (text : Text) : Prop where
  sequential : Patch.Sequential (first.server.file file).text groups.flatten text
  bounded : ∀ group ∈ groups, group ≠ [] ∧ group.length ≤ first.settings.writeThreshold
  requested : Patch.Requested (first.server.file file).version groups requests

/-- The first of the patches that wait, joined in one request. -/
structure Batch (threshold : Nat) (rest : List Patch) (text : Text) (count : Nat) (joined : Patch)
    (next : Text) : Prop where
  pos : 0 < count
  bounded : count ≤ threshold
  count_le : count ≤ rest.length
  joins : Patch.consolidate (rest.take count) = .ok (some joined)
  changes : joined.isEmpty = false
  leads : joined.Leads text next
  simplified : Diff.Simplified joined.diffs
  sequential : Patch.Sequential text (rest.take count) next

theorem Batch.append {threshold count : Nat} {joined : Patch}
    (h : Batch threshold rest text count joined next) (more : List Patch) :
    Batch threshold (rest ++ more) text count joined next := by
  have htake : (rest ++ more).take count = rest.take count :=
    List.take_append_of_le_length h.count_le
  refine ⟨h.pos, h.bounded, ?_, htake ▸ h.joins, h.changes, h.leads, h.simplified,
    htake ▸ h.sequential⟩
  rw [List.length_append]
  exact Nat.le_add_right_of_le h.count_le

/-- How far the one request has come that can be under way. -/
inductive Leg (first : State) (file : FileId) (s : State) (requests : List Patch) (sent : Patch)
    (text next : Text) : DeliveryPhase → Prop
  | outbound : Level first file s requests text →
      Leg first file s requests sent text next .submitted
  | held {id : Uuid} {version : Int} :
      version = (first.server.file file).version + requests.length + 1 →
      Level first file s (requests ++ [sent]) next →
      Leg first file s requests sent text next (.withheld (.ok (.committed id version [])))
  | back {id : Uuid} {version : Int} :
      version = (first.server.file file).version + requests.length + 1 →
      Level first file s (requests ++ [sent]) next →
      Leg first file s requests sent text next (.answered (.ok (.committed id version [])))

/-- Where the server is: as far as the client knows, or ahead of it by a request that is under
way. -/
inductive Flight (first : State) (file : FileId) (box : Nat) (s : State)
    (requests rest : List Patch) (text : Text) : Prop
  | ashore : (∀ index, (s.phase index).isAwaiting = false) →
      (∀ (other : Nat) (d : Delivery), s.deliveries[other]? = some d → d.phase ≠ .submitted) →
      Level first file s requests text → Flight first file box s requests rest text
  | aboard {index delivery count deadline : Nat} {joined sent : Patch} {next : Text}
      {phase : DeliveryPhase} :
      s.senders[index]? = some ⟨file, .awaiting box delivery sent count deadline⟩ →
      s.deliveries[delivery]? =
        some ⟨Request.ofPatch (Uuid.ofNat delivery) file sent, index, phase⟩ →
      (∀ (other : Nat) (d : Delivery), s.deliveries[other]? = some d → d.phase = .submitted →
        other = delivery) →
      count ≤ (s.outbox box).queue.length →
      Batch first.settings.writeThreshold rest text count joined next →
      sent = joined.rebased ((first.server.file file).version + requests.length : Nat) →
      Leg first file s requests sent text next phase →
      Flight first file box s requests rest text

/-- A sender that has still to look at the outbox. -/
def Sender.Attends (file : FileId) (box : Nat) (sender : Sender) : Prop :=
  sender.file = file ∧ (sender.phase = .starting ∨ sender.phase.box? = some box)

/-- How far the draining has come: the groups are delivered, and the rest waits. -/
structure Progress (first : State) (file : FileId) (box : Nat) (ps : List Patch) (s : State)
    (groups : List (List Patch)) (requests rest : List Patch) (text : Text) : Prop where
  covers : ps = groups.flatten ++ rest
  delivered : Delivered first file groups requests text
  holds : (s.outbox box).Holds rest
  version : (s.outbox box).version = ((first.server.file file).version + requests.length : Nat)
  flight : Flight first file box s requests rest text

/-- Everything that was handed over is delivered, under way, or still waits. -/
structure Underway (first : State) (file : FileId) (box : Nat) (ps : List Patch) (s : State) :
    Prop where
  settings : s.settings = first.settings
  tracked : s.tracked.get? file = some box
  notifier : s.notifier = .idle ∨ s.notifier = .receiving
  notifications : s.notifications = []
  replies : ∀ reply ∈ s.replies, reply.Commits
  senders : ∀ {index : Nat} {sender : Sender}, s.senders[index]? = some sender →
    (index < first.senders.length ∧ ∃ result, sender.phase = .finished result) ∨
      sender.file = file ∧ sender.phase.Ships box
  attended : (s.outbox box).hasPending = true →
    ∃ (index : Nat) (sender : Sender), s.senders[index]? = some sender ∧ sender.Attends file box
  progress : ∃ groups requests rest text,
    Progress first file box ps s groups requests rest text

theorem AtRest.underway (h : AtRest s file box) : Underway s file box [] s where
  settings := rfl
  tracked := h.tracked
  notifier := h.notifier
  notifications := h.notifications
  replies := h.replies
  senders hs := .inl ⟨(List.getElem?_eq_some_iff.mp hs).1, h.finished _ (List.mem_of_getElem? hs)⟩
  attended hwaits := by rw [h.sent] at hwaits; cases hwaits
  progress := by
    obtain ⟨hincoming, hqueue⟩ := (Outbox.hasPending_eq_false_iff _).mp h.sent
    refine ⟨[], [], [], _, rfl, ⟨.nil _, nofun, .nil _⟩, ⟨⟨[], hincoming.symm, hqueue⟩, ?_⟩, ?_,
      .ashore ?_ ?_ ⟨?_, ?_⟩⟩
    · simp [hincoming]
    · simpa using h.level
    · intro index
      cases hs : s.senders[index]? with
      | none => simp [State.phase, hs, SenderPhase.isAwaiting]
      | some sender =>
        obtain ⟨result, hphase⟩ := h.finished _ (List.mem_of_getElem? hs)
        rw [State.phase_of_getElem? hs, hphase]
        rfl
    · exact fun other d hd => h.arrived d (List.mem_of_getElem? hd)
    · simp
    · simp

/-! ### What does not matter -/

theorem Level.kept (h : Level first file s requests text) (hserver : t.server = s.server)
    (hrequests : t.record.requests = s.record.requests) : Level first file t requests text :=
  ⟨hserver ▸ h.server, hrequests ▸ h.requests⟩

theorem Leg.kept {sent : Patch} {phase : DeliveryPhase}
    (h : Leg first file s requests sent text next phase) (hserver : t.server = s.server)
    (hrequests : t.record.requests = s.record.requests) :
    Leg first file t requests sent text next phase := by
  cases h with
  | outbound hlevel => exact .outbound (hlevel.kept hserver hrequests)
  | held hversion hlevel => exact .held hversion (hlevel.kept hserver hrequests)
  | back hversion hlevel => exact .back hversion (hlevel.kept hserver hrequests)

/-- A sender that does not wait for an answer may move, and patches may come in. -/
theorem Flight.kept (h : Flight first file box s requests rest text)
    (hphase : ∀ index, (t.phase index).isAwaiting = (s.phase index).isAwaiting)
    (hsenders : ∀ {index : Nat} {sender : Sender}, s.senders[index]? = some sender →
      sender.phase.isAwaiting = true → t.senders[index]? = some sender)
    (hdeliveries : t.deliveries = s.deliveries) (hserver : t.server = s.server)
    (hrequests : t.record.requests = s.record.requests)
    (hqueue : (t.outbox box).queue.length = (s.outbox box).queue.length) (more : List Patch) :
    Flight first file box t requests (rest ++ more) text := by
  cases h with
  | ashore hnone hsubmitted hlevel =>
    refine .ashore (fun index => (hphase index).trans (hnone index)) ?_
      (hlevel.kept hserver hrequests)
    rwa [hdeliveries]
  | aboard hwaits hdelivery honly hcount hbatch hsent hleg =>
    refine .aboard (hsenders hwaits rfl) (hdeliveries ▸ hdelivery) (hdeliveries ▸ honly)
      (hqueue ▸ hcount) (hbatch.append more) hsent (hleg.kept hserver hrequests)

/-- No sender and no outbox has moved. -/
theorem Underway.kept (h : Underway first file box ps s) (hsettings : t.settings = s.settings)
    (htracked : t.tracked = s.tracked) (houtboxes : t.outboxes = s.outboxes)
    (hnotifier : t.notifier = .idle ∨ t.notifier = .receiving)
    (hnotifications : t.notifications = s.notifications)
    (hreplies : ∀ reply ∈ t.replies, reply ∈ s.replies) (hsenders : t.senders = s.senders)
    (hprogress : Progress first file box ps s groups requests rest text)
    (hflight : Flight first file box t requests rest text) : Underway first file box ps t := by
  have houtbox := congrFun (State.outbox_congr houtboxes) box
  refine ⟨hsettings.trans h.settings, htracked ▸ h.tracked, hnotifier,
    hnotifications.trans h.notifications, fun reply hmem => h.replies reply (hreplies reply hmem),
    ?_, ?_, groups, requests, rest, text, hprogress.covers, hprogress.delivered,
    houtbox ▸ hprogress.holds, houtbox ▸ hprogress.version, hflight⟩
  · rw [hsenders]
    exact h.senders
  · rw [houtbox, hsenders]
    exact h.attended

/-- Nothing that matters here has moved. -/
theorem Underway.same (h : Underway first file box ps s) (hsettings : t.settings = s.settings)
    (htracked : t.tracked = s.tracked) (houtboxes : t.outboxes = s.outboxes)
    (hnotifier : t.notifier = .idle ∨ t.notifier = .receiving)
    (hnotifications : t.notifications = s.notifications) (hreplies : t.replies = s.replies)
    (hsenders : t.senders = s.senders) (hdeliveries : t.deliveries = s.deliveries)
    (hserver : t.server = s.server) (hrequests : t.record.requests = s.record.requests) :
    Underway first file box ps t := by
  obtain ⟨groups, requests, rest, text, hprogress⟩ := h.progress
  have hphase := State.phase_congr hsenders
  have houtbox := congrFun (State.outbox_congr houtboxes) box
  have hkept := hprogress.flight.kept (t := t) (fun index => hphase ▸ rfl)
    (fun hs _ => hsenders ▸ hs) hdeliveries hserver hrequests (houtbox ▸ rfl) []
  rw [List.append_nil] at hkept
  exact h.kept hsettings htracked houtboxes hnotifier hnotifications (by simp [hreplies]) hsenders
    hprogress hkept

/-! ### Handing over -/

/-- What is handed over waits. -/
theorem Underway.hand {more : List Patch} (h : Underway first file box ps s)
    (hbox : box < s.outboxes.length)
    (hmore : ∀ p ∈ more, p.baseVersion ≤ (s.outbox box).version) :
    Underway first file box (ps ++ more) (s.sendPatches file more) := by
  obtain ⟨ready, hsend⟩ := State.sendPatches_of_tracked h.tracked more
  have hmeanwhile : Meanwhile none s _ (s.sendPatches file more) := s.sendPatches_meanwhile file more
  have hstill := hmeanwhile.still
  have houtbox : (s.sendPatches file more).outbox box = (s.outbox box).enqueue more := by
    rw [hsend]
    exact State.outbox_setOutbox hbox
  have hsenders : (s.sendPatches file more).senders = s.senders ++ [⟨file, .starting⟩] := by
    rw [hsend]
  have hserver : (s.sendPatches file more).server = s.server := by rw [hsend]; rfl
  have hrecord : (s.sendPatches file more).record = s.record := by rw [hsend]; rfl
  obtain ⟨groups, requests, rest, text, rfl, hdelivered, hholds, hversion, hflight⟩ := h.progress
  refine ⟨?_, ?_, hstill.notifier ▸ h.notifier, ?_, ?_, fun {index sender} hs => ?_, fun _ => ?_,
    groups, requests, rest ++ more, text, List.append_assoc .., hdelivered,
    houtbox ▸ hholds.enqueue hmore, houtbox ▸ hversion,
    hflight.kept (fun index => hstill.phase ▸ rfl) (fun hs _ => hstill.sender hs)
      hstill.deliveries hserver (hrecord ▸ rfl) (houtbox ▸ rfl) more⟩
  · rw [hsend]
    exact h.settings
  · rw [hsend]
    exact h.tracked
  · rw [hsend]
    exact h.notifications
  · rw [hsend]
    exact h.replies
  · rw [hsenders, List.getElem?_append] at hs
    split at hs
    · exact h.senders hs
    · obtain rfl := List.mem_singleton.mp (List.mem_of_getElem? hs)
      exact .inr ⟨rfl, trivial⟩
  · exact ⟨s.senders.length, ⟨file, .starting⟩, by simp [hsenders], rfl, .inl rfl⟩

/-! ### Senders -/

/-- A sender moves, and the draining has come as far as `hprogress` says. -/
theorem Underway.setSender (next : SenderPhase) (h : Underway first file box ps s)
    (hs : s.senders[index]? = some sender) (hfile : sender.file = file) (hships : next.Ships box)
    (hsenders : t.senders = (s.setSender index next).senders) (hsettings : t.settings = s.settings)
    (htracked : t.tracked = s.tracked) (hnotifier : t.notifier = s.notifier)
    (hnotifications : t.notifications = s.notifications) (hreplies : t.replies = s.replies)
    (hattended : (t.outbox box).hasPending = true → next.box? = some box ∨
      ∃ other, other ≠ index ∧ (s.phase other).box? = some box)
    (hprogress : ∃ groups requests rest text,
      Progress first file box ps t groups requests rest text) : Underway first file box ps t := by
  have hnow : t.senders[index]? = some { sender with phase := next } :=
    hsenders ▸ State.senders_setSender hs next
  have hother {other : Nat} (hne : other ≠ index) : t.senders[other]? = s.senders[other]? :=
    hsenders ▸ State.senders_setSender_of_ne hne next
  refine ⟨hsettings.trans h.settings, htracked ▸ h.tracked, hnotifier ▸ h.notifier,
    hnotifications.trans h.notifications, hreplies ▸ h.replies, fun {other moved} hmoved => ?_,
    fun hwaits => ?_, hprogress⟩
  · by_cases hne : other = index
    · subst hne
      obtain rfl := Option.some.inj (hnow.symm.trans hmoved)
      exact .inr ⟨hfile, hships⟩
    · exact h.senders (hother hne ▸ hmoved)
  · rcases hattended hwaits with hbusy | ⟨other, hne, hbusy⟩
    · exact ⟨index, _, hnow, hfile, .inr hbusy⟩
    · obtain ⟨rival, hrival, hphase⟩ := State.exists_sender hbusy
      refine ⟨other, rival, (hother hne).trans hrival, ?_, .inr (hphase ▸ hbusy)⟩
      rcases h.senders hrival with ⟨-, result, hfinished⟩ | ⟨hhome, -⟩
      · rw [← hphase, hfinished] at hbusy
        cases hbusy
      · exact hhome

/-- A sender that does not wait for an answer goes on; the patches stay where they are. -/
theorem Underway.moved {phase : SenderPhase} {o : Outbox} (lock : Lock TaskId)
    (ready : List TaskId) (next : SenderPhase) (h : Underway first file box ps s)
    (hbox : box < s.outboxes.length) (hs : s.senders[index]? = some ⟨file, phase⟩)
    (hphase : phase.isAwaiting = false) (hnext : next.isAwaiting = false) (hships : next.Ships box)
    (hincoming : o.incoming = (s.outbox box).incoming) (hqueue : o.queue = (s.outbox box).queue)
    (hversion : o.version = (s.outbox box).version)
    (hattended : o.hasPending = true → next.box? = some box ∨
      ∃ other, other ≠ index ∧ (s.phase other).box? = some box) :
    Underway first file box ps
      (State.setSender { s.setOutbox box o with lock, ready } index next) := by
  have houtbox : State.outbox (State.setSender { s.setOutbox box o with lock, ready } index next)
      box = o := State.outbox_setOutbox hbox
  refine h.setSender next hs rfl hships rfl rfl rfl rfl rfl rfl (by rwa [houtbox]) ?_
  obtain ⟨groups, requests, rest, text, hps, hdelivered, hholds, hat, hflight⟩ := h.progress
  have hmoved := State.phase_setSender (s := { s.setOutbox box o with lock, ready }) hs next
  have hkept := hflight.kept
    (t := State.setSender { s.setOutbox box o with lock, ready } index next) (fun other => ?_)
    (fun {other rival} hrival hwaits => ?_) rfl rfl rfl (by rw [houtbox, hqueue]) []
  · rw [List.append_nil] at hkept
    refine ⟨groups, requests, rest, text, hps, hdelivered, ?_, ?_, hkept⟩
    · rw [houtbox]
      exact hholds.congr hincoming hqueue hversion
    · rw [houtbox, hversion, hat]
  · rw [hmoved]
    by_cases hother : other = index
    · subst hother
      rw [Function.update_self, State.phase_of_getElem? hs, hnext, hphase]
    · rw [Function.update_of_ne hother]
      rfl
  · have hother : index ≠ other := by
      rintro rfl
      obtain rfl := Option.some.inj (hs.symm.trans hrival)
      rw [hphase] at hwaits
      cases hwaits
    simpa [State.setSender, State.setOutbox, hother] using hrival

theorem State.isAwaiting_sender (h : s.senders[index]? = some sender) :
    (s.phase index).isAwaiting = sender.phase.isAwaiting :=
  congrArg SenderPhase.isAwaiting (State.phase_of_getElem? h)

/-- Who has the send slot is the only one that can wait for an answer. -/
theorem Underway.eq_of_awaiting {other : Nat} (h : Underway first file box ps s)
    (hslots : Slots s ledgers) (hslot : (s.phase index).slot? = some box)
    (hwaits : (s.phase other).isAwaiting = true) : other = index := by
  cases hs : s.senders[other]? with
  | none => simp [State.phase, hs, SenderPhase.isAwaiting] at hwaits
  | some rival =>
    rw [State.isAwaiting_sender hs] at hwaits
    rcases h.senders hs with ⟨-, result, hfinished⟩ | ⟨-, hships⟩
    · rw [hfinished] at hwaits
      cases hwaits
    · obtain ⟨home, phase⟩ := rival
      cases phase with
      | awaiting held =>
        obtain rfl : held = box := hships
        exact hslots.eq_of_slot? (State.slot?_sender hs) hslot
      | starting | claiming | queued | opening | reconciling | closing | finished => cases hwaits

/-- While the sender with the slot does not wait for an answer, no request is under way. -/
theorem Flight.of_slot (h : Flight first file box s requests rest text) (hslots : Slots s ledgers)
    (hslot : (s.phase index).slot? = some box) (hnone : (s.phase index).isAwaiting = false) :
    (∀ (other : Nat) (d : Delivery), s.deliveries[other]? = some d → d.phase ≠ .submitted) ∧
      Level first file s requests text := by
  cases h with
  | ashore _ hsubmitted hlevel => exact ⟨hsubmitted, hlevel⟩
  | aboard hwaits =>
    obtain rfl := hslots.eq_of_slot? (State.slot?_sender hwaits) hslot
    rw [State.isAwaiting_sender hwaits] at hnone
    cases hnone

/-- When the sender with the slot waits no more, nobody waits for an answer. -/
theorem Underway.none_awaiting {next : SenderPhase} (h : Underway first file box ps s)
    (hslots : Slots s ledgers) (hs : s.senders[index]? = some sender)
    (hslot : sender.phase.slot? = some box) (hnext : next.isAwaiting = false) (other : Nat) :
    ((s.setSender index next).phase other).isAwaiting = false := by
  rw [State.phase_setSender hs]
  by_cases hother : other = index
  · subst hother
    rwa [Function.update_self]
  · rw [Function.update_of_ne hother, Bool.eq_false_iff]
    exact fun hwaits =>
      hother (h.eq_of_awaiting hslots ((State.slot?_sender hs).trans hslot) hwaits)

/-- What is left to deliver follows on what is delivered. -/
theorem Delivered.remaining (h : Delivered first file groups requests text)
    (hps : (first.server.file file).Takes (groups.flatten ++ rest) result) :
    (first.server.file file).Takes groups.flatten text ∧ Patch.Sequential text rest result := by
  obtain ⟨here, htakes, hrest⟩ := hps.of_append
  obtain rfl : here = text :=
    Except.ok.inj (htakes.sequential.applyAll_eq.symm.trans h.sequential.applyAll_eq)
  exact ⟨htakes, hrest⟩

/-- One more group is delivered. -/
theorem Delivered.concat {group more : List Patch} (h : Delivered first file groups requests text)
    (hseq : Patch.Sequential text group next) (hne : group ≠ [])
    (hlength : group.length ≤ first.settings.writeThreshold)
    (hmore : Patch.Requested ((first.server.file file).version + requests.length) [group] more) :
    Delivered first file (groups ++ [group]) (requests ++ more) next where
  sequential := by
    rw [List.flatten_append, List.flatten_singleton]
    exact h.sequential.append hseq
  bounded := by
    intro other hother
    rcases List.mem_append.mp hother with hother | hother
    · exact h.bounded other hother
    · obtain rfl := List.mem_singleton.mp hother
      exact ⟨hne, hlength⟩
  requested := h.requested.append hmore

end Session
end Coedit
