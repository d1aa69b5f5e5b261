import Coedit.Proofs.Underway

/-!
The rounds of a session that drains. Opening one asks for the first patches that wait, or drops them
if they change nothing (`Underway.openRound`); its answer takes them out (`Underway.closeRound`).
Who leaves, leaves the rest to a sender that has still to look (`Underway.claim`,
`Underway.finishRound`).
-/
namespace Coedit.Session

variable {s t first : State} {file : FileId} {box index : Nat} {sender : Sender}
  {ps requests rest : List Patch} {groups : List (List Patch)} {text next result : Text}
  {ledgers : Nat → Ledger}

/-- A batch that changes nothing counts as delivered. -/
theorem Progress.dropBatch {count : Nat} {joined : Patch}
    (h : Progress first file box ps s groups requests rest text) (hpos : 0 < count)
    (hbounded : count ≤ first.settings.writeThreshold) (hle : count ≤ rest.length)
    (hjoins : Patch.consolidate (rest.take count) = .ok (some joined))
    (hempty : joined.isEmpty = true) (hbatch : Patch.Sequential text (rest.take count) text)
    (houtbox : t.outbox box = (s.outbox box).drain.removeSent count)
    (hflight : Flight first file box t requests (rest.drop count) text) :
    Progress first file box ps t (groups ++ [rest.take count]) requests (rest.drop count) text := by
  have hgroup : (rest.take count).length = count := List.length_take_of_le hle
  have hgroup_ne : rest.take count ≠ [] := by
    intro he
    rw [he] at hgroup
    exact absurd hpos (Nat.not_lt.mpr (Nat.le_of_eq hgroup.symm))
  have hqueue : (s.outbox box).drain.queue.length = rest.length := by
    rw [h.holds.queue_drain, List.length_map]
  have hdone := h.delivered.concat hbatch hgroup_ne (hgroup.symm ▸ hbounded)
    (.idle hjoins hempty (.nil _))
  rw [List.append_nil] at hdone
  refine ⟨?_, hdone, houtbox ▸ h.holds.drain.removeSent (hqueue ▸ hle), houtbox ▸ h.version,
    hflight⟩
  rw [List.flatten_append, List.flatten_singleton, List.append_assoc, List.take_append_drop]
  exact h.covers

/-- A batch is put on its way while nothing else is. -/
theorem Flight.embark {count deadline : Nat} {joined sent : Patch}
    (hlevel : Level first file s requests text)
    (hsubmitted : ∀ (other : Nat) (d : Delivery), s.deliveries[other]? = some d →
      d.phase ≠ .submitted)
    (hbatch : Batch first.settings.writeThreshold rest text count joined next)
    (hsent : sent = joined.rebased ((first.server.file file).version + requests.length : Nat))
    (hwaits : t.senders[index]? =
      some ⟨file, .awaiting box s.deliveries.length sent count deadline⟩)
    (hdeliveries : t.deliveries = s.deliveries ++
      [⟨Request.ofPatch (Uuid.ofNat s.deliveries.length) file sent, index, .submitted⟩])
    (hqueue : (t.outbox box).queue.length = rest.length) (hserver : t.server = s.server)
    (hrequests : t.record.requests = s.record.requests) :
    Flight first file box t requests rest text := by
  refine .aboard hwaits (by simp [hdeliveries]) (fun other d hd hphase => ?_)
    (hqueue ▸ hbatch.count_le) hbatch hsent (.outbound (hlevel.kept hserver hrequests))
  rw [hdeliveries, List.getElem?_append] at hd
  split at hd
  · exact absurd hphase (hsubmitted other d hd)
  · have hlt := (List.getElem?_eq_some_iff.mp hd).1
    rw [List.length_singleton] at hlt
    omega

theorem Underway.openRound (h : Underway first file box ps s)
    (hslots : Slots s ledgers) (hbox : box < s.outboxes.length)
    (hps : (first.server.file file).Takes ps result) (hpos : 1 ≤ first.settings.writeThreshold)
    (hs : s.senders[index]? = some ⟨file, .opening box⟩) :
    Underway first file box ps (s.openRound index file box) := by
  obtain ⟨groups, requests, rest, text, hprogress⟩ := h.progress
  obtain ⟨rfl, hdelivered, hholds, hversion, hflight⟩ := hprogress
  obtain ⟨hsubmitted, hlevel⟩ :=
    hflight.of_slot hslots (State.slot?_sender hs) (State.isAwaiting_sender hs)
  obtain ⟨htakes, hseq⟩ := hdelivered.remaining hps
  unfold State.openRound
  rw [h.settings]
  by_cases hrest : rest = []
  · subst hrest
    have hincoming : (s.outbox box).incoming = [] := by
      obtain ⟨taken, hnil, -⟩ := hholds.waiting
      exact (List.append_eq_nil_iff.mp hnil.symm).2
    rw [hholds.openRound_nil, Outbox.drain_of_incoming_eq_nil hincoming]
    exact h.moved s.lock s.ready (.closing box (.ok ())) hbox hs rfl rfl rfl rfl rfl rfl
      fun _ => .inl rfl
  · obtain ⟨count, joined, next, hcount, hbounded, hle, hjoins, hleads, hsimple, hbatch, hopen⟩ :=
      hholds.openRound htakes.free_after hseq hrest hpos
    rw [hopen]
    cases hempty : joined.isEmpty with
    | true =>
      -- the group changes nothing, so that the text it leads to is the same
      obtain rfl := hleads.eq_of_isEmpty hempty
      have houtbox := State.outbox_setOutbox (o := (s.outbox box).drain.removeSent count) hbox
      refine h.setSender (.closing box (.ok ())) hs rfl rfl rfl rfl rfl rfl rfl rfl
        (fun _ => .inl rfl) ⟨_, requests, _, next, Progress.dropBatch
          ⟨rfl, hdelivered, hholds, hversion, hflight⟩ hcount hbounded hle hjoins hempty hbatch
          houtbox ?_⟩
      exact .ashore (h.none_awaiting hslots hs rfl rfl) hsubmitted ⟨hlevel.server, hlevel.requests⟩
    | false =>
      obtain ⟨woken, hsubmit, -⟩ := (s.setOutbox box (s.outbox box).drain).submit_eq index file
        (joined.rebased (s.outbox box).version)
      have houtbox := State.outbox_setOutbox (o := (s.outbox box).drain) hbox
      have hqueue : (s.outbox box).drain.queue.length = rest.length := by
        rw [hholds.queue_drain, List.length_map]
      simp only [Bool.false_eq_true, if_false, hsubmit]
      generalize hdeadline : (s.setOutbox box (s.outbox box).drain).clock + _ = deadline
      refine h.setSender (.awaiting box s.deliveries.length (joined.rebased (s.outbox box).version)
        count deadline) hs rfl rfl rfl rfl rfl rfl rfl rfl (fun _ => .inl rfl)
        ⟨groups, requests, rest, text, rfl, hdelivered, ?_, ?_, ?_⟩
      · exact houtbox.symm ▸ hholds.drain
      · exact houtbox.symm ▸ hversion
      · exact .embark hlevel hsubmitted
          ⟨hcount, hbounded, hle, hjoins, hempty, hleads, hsimple, hbatch⟩ (by rw [hversion])
          (State.senders_setSender (by exact hs) _) rfl
          ((congrArg (·.queue.length) houtbox).trans hqueue) rfl rfl

/-- The answer takes the batch out of the queue, and the document is where the server is. -/
theorem Underway.closeRound {delivery count deadline : Nat} {sent : Patch}
    {answer : Except SendError Response} (h : Underway first file box ps s)
    (hslots : Slots s ledgers) (hbox : box < s.outboxes.length)
    (hs : s.senders[index]? = some ⟨file, .awaiting box delivery sent count deadline⟩)
    (hanswer : s.answer? delivery = some answer) :
    Underway first file box ps (s.closeRound index file box sent count (some answer)) := by
  obtain ⟨groups, requests, rest, text, rfl, hdelivered, hholds, hversion, hflight⟩ := h.progress
  cases hflight with
  | ashore hnone =>
    have hwaits := (State.isAwaiting_sender hs).symm.trans (hnone index)
    cases hwaits
  | @aboard other _ _ _ joined _ next phase hwaits hdelivery honly hcount hbatch hsent hleg =>
    obtain rfl : other = index :=
      hslots.eq_of_slot? (State.slot?_sender hwaits) (State.slot?_sender hs)
    obtain ⟨⟩ := hs.symm.trans hwaits
    rw [State.answer?, hdelivery] at hanswer
    cases hleg with
    | outbound => cases hanswer
    | held => cases hanswer
    | @back id version hnext hlevel =>
      obtain rfl : .ok (Response.committed id version []) = answer := Option.some.inj hanswer
      have hgroup : (rest.take count).length = count := List.length_take_of_le hbatch.count_le
      have hgroup_ne : rest.take count ≠ [] :=
        List.ne_nil_of_length_pos (hgroup.symm ▸ hbatch.pos)
      have hdone := hdelivered.concat hbatch.sequential hgroup_ne (hgroup.symm ▸ hbatch.bounded)
        (.sent hbatch.joins hbatch.changes (.nil _))
      rw [← hsent] at hdone
      have hlater : ((s.outbox box).removeSent count).version ≤ version := by
        rw [Outbox.version_removeSent, hversion, hnext]
        omega
      have hgone := (hholds.removeSent hcount).advance hlater
      have houtbox := State.outbox_setOutbox
        (o := ((s.outbox box).removeSent count).advance version) hbox
      refine h.setSender (.closing box (.ok ())) hs rfl rfl rfl rfl rfl rfl rfl rfl
        (fun _ => .inl rfl) ⟨_, _, rest.drop count, next, ?_, hdone, ?_, ?_, ?_⟩
      · rw [List.flatten_append, List.flatten_singleton, List.append_assoc, List.take_append_drop]
      · exact houtbox.symm ▸ hgone
      · refine (congrArg Outbox.version houtbox).trans ?_
        rw [Outbox.version_advance, hnext, List.length_append, List.length_singleton]
        omega
      · refine .ashore (h.none_awaiting hslots hs rfl rfl) (fun other d hd hphase => ?_)
          ⟨hlevel.server, hlevel.requests⟩
        obtain rfl := honly other d hd hphase
        obtain rfl := Option.some.inj (hdelivery.symm.trans hd)
        cases hphase

/-- A sender that finds the slot taken leaves the rest to the one that has it. -/
theorem Underway.claim (h : Underway first file box ps s) (hslots : Slots s ledgers)
    (hbox : box < s.outboxes.length) (hs : s.senders[index]? = some ⟨file, .claiming box⟩) :
    Underway first file box ps (s.stepSender index ⟨file, .claiming box⟩) := by
  cases hsending : (s.outbox box).sending with
  | true =>
    simp only [State.stepSender, Outbox.claim?, hsending, if_true]
    obtain ⟨other, -, hother⟩ := hslots.taken hsending
    have hne : other ≠ index := by
      rintro rfl
      cases (State.slot?_sender hs).symm.trans hother
    have hmoved := h.moved (o := s.outbox box) s.lock s.ready (.finished (.ok ())) hbox hs rfl rfl
      trivial rfl rfl rfl fun _ => .inr ⟨other, hne, SenderPhase.box?_of_slot? hother⟩
    rwa [State.setOutbox_self] at hmoved
  | false =>
    simp only [State.stepSender, Outbox.claim?, hsending, Bool.false_eq_true, if_false]
    have hclaimed (lock : Lock TaskId) (held : Bool) : Underway first file box ps
        (State.setSender { s.setOutbox box { s.outbox box with sending := true } with lock } index
          (if held then .opening box else .queued box)) := by
      cases held with
      | true =>
        exact h.moved lock _ (.opening box) hbox hs rfl rfl rfl rfl rfl rfl fun _ => .inl rfl
      | false =>
        exact h.moved lock _ (.queued box) hbox hs rfl rfl rfl rfl rfl rfl fun _ => .inl rfl
    exact hclaimed _ _

/-- A sender that has finished a round goes on if patches came in meanwhile. -/
theorem Underway.finishRound (h : Underway first file box ps s) (hbox : box < s.outboxes.length)
    (hs : s.senders[index]? = some ⟨file, .closing box (.ok ())⟩) :
    Underway first file box ps (s.finishRound index box (.ok ())) := by
  obtain ⟨woken, hrelease, -⟩ := s.releaseLock_eq .shared
  have hended (lock : Lock TaskId) (ready : List TaskId) : Underway first file box ps
      (State.setSender { s.setOutbox box (s.outbox box).release with lock, ready } index
        (if (s.outbox box).release.hasPending then .claiming box else .finished (.ok ()))) := by
    cases hwaits : (s.outbox box).release.hasPending with
    | true =>
      exact h.moved lock ready (.claiming box) hbox hs rfl rfl rfl rfl rfl rfl fun _ => .inl rfl
    | false =>
      refine h.moved lock ready (.finished (.ok ())) hbox hs rfl rfl trivial rfl rfl rfl
        fun hpending => ?_
      rw [hwaits] at hpending
      cases hpending
  simp only [State.finishRound, hrelease]
  exact hended _ _

/-- A sender goes on, and nothing that was handed over is lost. -/
theorem Underway.stepSender (h : Underway first file box ps s)
    (hslots : Slots s ledgers) (hbox : box < s.outboxes.length)
    (hps : (first.server.file file).Takes ps result) (hpos : 1 ≤ first.settings.writeThreshold)
    (hin : s.inTime (.sender index) = true) (hs : s.senders[index]? = some sender) :
    Underway first file box ps (s.stepSender index sender) := by
  rcases h.senders hs with ⟨-, ending, hfinished⟩ | ⟨hhome, hships⟩
  · simp only [State.stepSender, hfinished]
    exact h
  · obtain ⟨home, phase⟩ := sender
    obtain rfl : home = file := hhome
    cases phase with
    | starting =>
      simp only [State.stepSender, h.tracked]
      have hmoved := h.moved (o := s.outbox box) s.lock s.ready (.claiming box) hbox hs rfl rfl rfl
        rfl rfl rfl fun _ => .inl rfl
      rwa [State.setOutbox_self] at hmoved
    | claiming held =>
      obtain rfl : held = box := hships
      exact h.claim hslots hbox hs
    | queued held =>
      obtain rfl : held = box := hships
      have hmoved := h.moved (o := s.outbox held) s.lock s.ready (.opening held) hbox hs rfl rfl
        rfl rfl rfl rfl fun _ => .inl rfl
      rwa [State.setOutbox_self] at hmoved
    | opening held =>
      obtain rfl : held = box := hships
      exact h.openRound hslots hbox hps hpos hs
    | awaiting held delivery sent count deadline =>
      obtain rfl : held = box := hships
      simp only [State.stepSender]
      cases hanswer : s.answer? delivery with
      | some answer => exact h.closeRound hslots hbox hs hanswer
      | none =>
        have hearly : ¬deadline ≤ s.clock := by
          simpa [State.inTime, State.phase_of_getElem? hs, hanswer] using hin
        simp only [hearly, if_false]
        exact h
    | reconciling => exact hships.elim
    | closing held ending =>
      rcases ending with error | ⟨⟩
      · exact hships.elim
      · obtain rfl : held = box := hships
        exact h.finishRound hbox hs
    | finished => exact h

end Coedit.Session
