import CipherLink.Proofs.Connecting
import CipherLink.Proofs.Frame.Fronts
import CipherLink.Proofs.Handshake.Remainder

/-!
# First frames

Behind its handshake a server has to tell the client an id, in the first frame that it sends.
The call of `connect` reads this frame and no further: any other front of the stream makes it
fail, which leaves the client as it was and without a connection. The session of a call that
succeeds goes on with the reader of the call, so it begins with the very next frame.
-/

namespace CipherLink

def ReadOutcome.count (received : UInt64) (outcome : ReadOutcome) : UInt64 :=
  received + UInt64.ofNat (outcome.size?.getD 0)

namespace Session

structure ReadsOn (s : Session) (id : ClientId) (r : FrameReader) (received : UInt64) : Prop where
  id : s.id = id
  reader : s.channel.reader = r
  reading : s.isReading = r.isOpen
  received : s.received = received

def hearing? (id : ClientId) : ReadOutcome → Option (Message × Delivery)
  | .message message size => some (message, ⟨id, size⟩)
  | .empty _ | .closed | .error _ => none

def Heard.message? : Heard → Option (Message × Delivery)
  | .message m delivery => some (m, delivery)
  | .nothing | .waiting => none

theorem ReadsOn.read {s : Session} {id : ClientId} {r next : FrameReader} {received : UInt64}
    {outcome : ReadOutcome} (h : s.ReadsOn id r received)
    (hread : r.readNext = .outcome outcome next) :
    s.read.1.message? = hearing? id outcome ∧
      s.read.2.ReadsOn id next (outcome.count received) := by
  obtain ⟨rfl, rfl, hreading, rfl⟩ := h
  have hnothing : s.received + UInt64.ofNat 0 = s.received := UInt64.add_zero _
  obtain ⟨hclosed, rfl, rfl⟩ | ⟨hopen, hnext⟩ := FrameReader.isOpen_next hread
  · have hwaits : s.read = (.waiting, s) := by
      simp only [Session.read, hreading, hclosed, Bool.not_false, if_true]
    rw [hwaits]
    exact ⟨rfl, rfl, rfl, hreading, hnothing.symm⟩
  · simp only [Session.read, hreading, hopen, hread, Bool.not_true, Bool.false_eq_true, if_false]
    cases outcome with
    | message message size => exact ⟨rfl, rfl, rfl, hnext.symm, rfl⟩
    | empty size => exact ⟨rfl, rfl, rfl, hnext.symm, rfl⟩
    | closed => exact ⟨rfl, rfl, rfl, hnext.symm, hnothing.symm⟩
    | error cause =>
      refine ⟨rfl, ?_⟩
      dsimp only
      split
      · next htransient => exact ⟨rfl, rfl, (hnext.trans htransient).symm, hnothing.symm⟩
      · next hfinal =>
        rw [Bool.not_eq_true] at hfinal
        exact ⟨rfl, rfl, (hnext.trans hfinal).symm, hnothing.symm⟩

end Session

namespace Client

def hearAll (c : Client) (id : ClientId) (outcomes : List ReadOutcome) : Client :=
  (outcomes.filterMap (Session.hearing? id)).foldl (fun c heard => c.publish heard.1 heard.2) c

theorem publish_with_sessions (c : Client) (sessions : List Session) (held : Slot Handle)
    (message : Message) (delivery : Delivery) :
    publish { c with sessions, held } message delivery =
      { c.publish message delivery with sessions, held } := by
  rw [publish, publish, Subscriptions.runAll_snd, Subscriptions.runAll_snd]
  dsimp only
  generalize c.subscriptions.snapshot message.key = handlers
  induction handlers generalizing c with
  | nil => rfl
  | cons handler handlers ih =>
    have hhandle : (handle message delivery handler { c with sessions, held }).2 =
        { (handle message delivery handler c).2 with sessions, held } := by
      cases handler with
      | note ordinal => rfl
      | respond ticket =>
        rw [handle, handle]
        split <;> rfl
    rw [List.foldl_cons, List.foldl_cons, hhandle, ih]

theorem readOn_last (c : Client) (earlier : List Session) (held : Slot Handle) (s : Session) :
    (readOn { c with sessions := earlier ++ [s], held } earlier.length).2 =
      { (match s.read.1.message? with
          | some heard => c.publish heard.1 heard.2
          | none => c) with sessions := earlier ++ [s.read.2], held } := by
  have hplace : (earlier ++ [s])[earlier.length]? = some s := List.getElem?_concat_length
  have hset := set_concat_length earlier s
  simp only [readOn, hplace]
  cases hread : s.read with
  | mk heard next =>
    cases heard with
    | message message delivery =>
      simp only [setSession, hset, Session.Heard.message?]
      exact c.publish_with_sessions _ held message delivery
    | nothing =>
      simp only [setSession, hset]
      rfl
    | waiting =>
      simp only [setSession, hset]
      rfl

end Client

namespace SharedClient

theorem follow_reads {id : ClientId} {n : Nat} {r : FrameReader} {received : UInt64}
    {outcomes : List ReadOutcome} (hmany : r.readMany n = some outcomes) {s : Session}
    (h : s.ReadsOn id r received) (c : Client) (earlier : List Session) (held : Slot Handle)
    (calls : List ConnectCall) :
    ∃ last : Session, last.id = id ∧
      last.received = outcomes.foldl ReadOutcome.count received ∧
      follow ⟨{ c with sessions := earlier ++ [s], held }, calls⟩
          (List.replicate n (.read earlier.length)) =
        some ⟨{ c.hearAll id outcomes with sessions := earlier ++ [last], held }, calls⟩ := by
  -- By induction on the steps: what the reader of the session comes to is published, in its
  -- order and once.
  induction n generalizing r received outcomes s c with
  | zero =>
    obtain rfl := Option.some.inj hmany
    exact ⟨s, h.id, h.received, rfl⟩
  | succ n ih =>
    rw [FrameReader.readMany] at hmany
    split at hmany
    · next outcome next hread =>
      obtain ⟨others, hothers, rfl⟩ := Option.map_eq_some_iff.mp hmany
      obtain ⟨hheard, hnext⟩ := h.read hread
      have hstep := c.readOn_last earlier held s
      obtain ⟨last, hid, hreceived, hrun⟩ := ih hothers hnext
        (match s.read.1.message? with
          | some heard => c.publish heard.1 heard.2
          | none => c)
      refine ⟨last, hid, hreceived, ?_⟩
      rw [List.replicate_succ, follow, move, Option.bind_some, hstep, hrun, hheard,
        Client.hearAll, Client.hearAll]
      cases hhearing : Session.hearing? id outcome with
      | none => rw [List.filterMap_cons_none hhearing]
      | some heard => rw [List.filterMap_cons_some hhearing, List.foldl_cons]
    · simp at hmany
    · simp at hmany

end SharedClient

/-- What a call of `connect` makes of the front of a stream: the id that it is told and the size
of the frame, or why it fails. -/
inductive Greets (r : FrameReader) (bytes : Bytes) (ended : Bool) :
    Except ClientError (ClientId × Nat) → Prop
  | identity {message : Message} {id : ClientId} {size : Nat}
      (reads : r.Front bytes ended (.message message size))
      (key : message.key = MessageKey.identity) (named : message.clientId = some id) :
      Greets r bytes ended (.ok (id, size))
  | other {message : Message} {size : Nat} (reads : r.Front bytes ended (.message message size))
      (nameless : message.key = MessageKey.identity → message.clientId = none) :
      Greets r bytes ended (.error .missingIdentity)
  | empty {size : Nat} (reads : r.Front bytes ended (.empty size)) :
      Greets r bytes ended (.error .missingIdentity)
  | closed (reads : r.Front bytes ended .closed) : Greets r bytes ended (.error .missingIdentity)
  | broken {cause : FrameError} (reads : r.Front bytes ended (.error cause)) :
      Greets r bytes ended (.error (.frame cause))

section

variable {r : FrameReader} {bytes : Bytes} {ended : Bool}
  {result : Except ClientError (ClientId × Nat)}

theorem greets_of_front {outcome : ReadOutcome} (h : r.Front bytes ended outcome) :
    Greets r bytes ended (Client.identityOf outcome) := by
  cases outcome with
  | message message size =>
    by_cases hkey : message.key = MessageKey.identity
    · cases hid : message.clientId with
      | none =>
        simp only [Client.identityOf, Message.assignedIdentity, hkey, if_true, hid]
        exact .other h fun _ => hid
      | some id =>
        simp only [Client.identityOf, Message.assignedIdentity, hkey, if_true, hid]
        exact .identity h hkey hid
    · simp only [Client.identityOf, Message.assignedIdentity, hkey, if_false]
      exact .other h fun hsame => absurd hsame hkey
  | empty size => exact .empty h
  | closed => exact .closed h
  | error cause => exact .broken h

theorem Greets.exists_front (h : Greets r bytes ended result) :
    ∃ outcome, r.Front bytes ended outcome ∧ Client.identityOf outcome = result := by
  cases h with
  | identity reads key named =>
    refine ⟨_, reads, ?_⟩
    simp only [Client.identityOf, Message.assignedIdentity, key, if_true, named]
  | @other message size reads nameless =>
    refine ⟨_, reads, ?_⟩
    by_cases hkey : message.key = MessageKey.identity
    · simp only [Client.identityOf, Message.assignedIdentity, hkey, if_true, nameless hkey]
    · simp only [Client.identityOf, Message.assignedIdentity, hkey, if_false]
  | empty reads => exact ⟨_, reads, rfl⟩
  | closed reads => exact ⟨_, reads, rfl⟩
  | broken reads => exact ⟨_, reads, rfl⟩

theorem Greets.unique {other : Except ClientError (ClientId × Nat)}
    (hr : r.Ready) (hsource : r.source.Delivers bytes (.behind ended))
    (h : Greets r bytes ended result) (h' : Greets r bytes ended other) : other = result := by
  obtain ⟨outcome, hfront, rfl⟩ := h.exists_front
  obtain ⟨outcome', hfront', rfl⟩ := h'.exists_front
  obtain ⟨next, hread⟩ := hfront.readNext hr hsource
  obtain ⟨next', hread'⟩ := hfront'.readNext hr hsource
  rw [hread] at hread'
  rw [(FrameReader.Step.outcome.inj hread').1]

end

namespace SharedClient

/-- The course of a call of `connect` that is made now, when its handshake succeeds and no time
runs out. -/
def connecting (s : SharedClient) (channel : Channel) : List ClientMove :=
  [.connect, .call s.calls.length (.dialled (.ok channel)), .call s.calls.length .hears,
    .call s.calls.length .ends]

/-- How such a call leaves the client. If it fails, the client is the one from before, without
a connection; if it succeeds, there is one more session, which has counted the first frame. -/
def Concludes (s s' : SharedClient) : Except ClientError (ClientId × Nat) → Prop
  | .error cause => s'.client.slot.state = .disconnected ∧
      s' = ⟨{ s.client with held := .idle }, s.calls ++ [.failed (some cause)]⟩
  | .ok (id, size) => s'.client.slot.state = .connected ∧
      ∃ session : Session, session.id = id ∧ session.received = UInt64.ofNat size ∧
        s' = ⟨{ s.client with
            sessions := s.client.sessions ++ [session]
            held := .active s.client.sessions.length },
          s.calls ++ [.connected s.client.sessions.length]⟩

theorem move_last (c : Client) (calls : List ConnectCall) (call : ConnectCall)
    (event : CallEvent) :
    move ⟨c, calls ++ [call]⟩ (.call calls.length event) =
      (c.advance call event).map fun next => ⟨next.2, calls ++ [next.1]⟩ := by
  have hplace : (calls ++ [call])[calls.length]? = some call := List.getElem?_concat_length
  have hset := set_concat_length calls call
  simp only [move, hplace, hset, Option.bind_eq_bind, Option.bind_some]
  cases c.advance call event <;> rfl

theorem follow_connecting {s : SharedClient} (hfree : s.client.slot.state = .disconnected ∨
    s.client.slot.state = .closed) (channel : Channel) : s.follow (s.connecting channel) =
      (Client.greeted? channel).map fun
        | .error cause => ⟨{ s.client with held := .idle }, s.calls ++ [.failed (some cause)]⟩
        | .ok session => ⟨{ s.client with
              sessions := s.client.sessions ++ [session]
              held := .active s.client.sessions.length },
            s.calls ++ [.connected s.client.sessions.length]⟩ := by
  have hbegins : s.client.beginConnect = .ok { s.client with held := .connecting } := by
    rw [Client.beginConnect_eq]
    obtain hstate | hstate := hfree <;> rw [hstate]
  have hconnect : s.move .connect =
      some ⟨{ s.client with held := .connecting }, s.calls ++ [.dialling]⟩ := by
    rw [move, hbegins]
  simp only [connecting, follow, hconnect, move_last, Client.advance, Option.bind_some,
    Option.map_some]
  cases Client.greeted? channel with
  | none => rfl
  | some outcome =>
    cases outcome with
    | error cause => simp [move_last, Client.advance, Client.abandonConnect]
    | ok session =>
      simp [move_last, Client.advance, Client.startSession, Client.completeConnect]

end SharedClient

open Handshake (field negotiate numberLength)

theorem FrameReader.ready_of_block {r : FrameReader} (hopen : r.isOpen = true)
    (hblock : r.block = 16) : r.Ready := by
  refine ⟨hopen, ?_, ?_, ?_⟩ <;> rw [hblock] <;> decide

theorem Channel.source_ofLink (link : Link) (maxFrame : Nat) (source : Source) :
    (ofLink link maxFrame source).reader.source = source :=
  rfl

theorem message_of_identityOf {outcome : ReadOutcome} {id : ClientId} {size : Nat}
    (h : Client.identityOf outcome = .ok (id, size)) :
    ∃ message, outcome = .message message size := by
  cases outcome with
  | message message size' =>
    simp only [Client.identityOf] at h
    split at h
    · obtain ⟨-, rfl⟩ := Prod.mk.inj (Except.ok.inj h)
      exact ⟨message, rfl⟩
    · simp at h
  | empty size' => simp [Client.identityOf] at h
  | closed => simp [Client.identityOf] at h
  | error cause => simp [Client.identityOf] at h

theorem greeted?_of_front {channel : Channel} {bytes : Bytes} {ended : Bool}
    {outcome : ReadOutcome} (hr : channel.reader.Ready)
    (hsource : channel.reader.source.Delivers bytes (.behind ended))
    (h : channel.reader.Front bytes ended outcome) :
    ∃ next, channel.reader.readNext = .outcome outcome next ∧
      Client.greeted? channel = some ((Client.identityOf outcome).map fun told =>
        { Session.start told.1 { channel with reader := next } with
          received := UInt64.ofNat told.2 }) := by
  obtain ⟨next, hread⟩ := h.readNext hr hsource
  refine ⟨next, hread, ?_⟩
  rw [Client.greeted?, hread]
  dsimp only
  cases Client.identityOf outcome <;> rfl

/-- Behind a handshake that has succeeded, `connect` comes to the one thing that the front of the
stream tells, unless the stream goes on and its first frame is unfinished. An identity frame
with an id opens the client, and nothing else does. If the call fails, nothing was published
and the client is without a connection. If it succeeds, the identity frame was counted and not
published, and the read loop publishes what stands behind it, as the reader of the call would
have read on. -/
theorem only_identity_opens {s : SharedClient} {noise : Noise} {source : Source} {sink : Sink}
    {link : Link} {bytes : Bytes} {ended : Bool}
    (hfree : s.client.slot.state = .disconnected ∨ s.client.slot.state = .closed)
    (hlink : (negotiate (s.client.party noise) source sink).result = .ok link)
    (hstream : (negotiate (s.client.party noise) source sink).source.Delivers bytes
      (.behind ended)) :
    let channel := Channel.ofLink link s.client.config.maxFrame
      (negotiate (s.client.party noise) source sink).source
    (∃ result s', Greets channel.reader bytes ended result ∧
      (∀ other, Greets channel.reader bytes ended other → other = result) ∧
      s.follow (s.connecting channel) = some s' ∧ s.Concludes s' result ∧
      ∀ id size, result = .ok (id, size) →
        ∀ n outcomes, channel.reader.readMany (n + 1) = some outcomes →
          ∃ session : Session, session.id = id ∧
            session.received = outcomes.foldl ReadOutcome.count 0 ∧
            s'.follow (List.replicate n (.read s.client.sessions.length)) =
              some ⟨{ s.client.hearAll id outcomes.tail with
                  sessions := s.client.sessions ++ [session]
                  held := .active s.client.sessions.length }, s'.calls⟩) ∨
    ended = false ∧ channel.reader.Unfinished bytes ∧ s.follow (s.connecting channel) = none := by
  intro channel
  have hr : channel.reader.Ready :=
    FrameReader.ready_of_block rfl (Handshake.block_of_negotiate hlink)
  have hsource : channel.reader.source.Delivers bytes (.behind ended) := hstream
  have hrun := SharedClient.follow_connecting hfree channel
  obtain ⟨outcome, hfront⟩ | ⟨rfl, hunfinished⟩ := FrameReader.exists_front hr bytes ended
  · left
    obtain ⟨next, hread, hgreeted⟩ := greeted?_of_front hr hsource hfront
    have hgreets := greets_of_front hfront
    rw [hgreeted] at hrun
    refine ⟨Client.identityOf outcome, _, hgreets, fun other h => hgreets.unique hr hsource h,
      hrun, ?_, ?_⟩
    · cases Client.identityOf outcome with
      | error cause => exact ⟨rfl, rfl⟩
      | ok told =>
        refine ⟨?_, _, rfl, rfl, rfl⟩
        exact Client.state_of_connected rfl List.getElem?_concat_length rfl
    · intro id size hidentity n outcomes hmany
      obtain ⟨message, rfl⟩ := message_of_identityOf hidentity
      rw [FrameReader.readMany, hread] at hmany
      obtain ⟨later, hlater, rfl⟩ := Option.map_eq_some_iff.mp hmany
      rw [hidentity]
      -- The session has the reader that has read the first frame.
      have hstays : next.isOpen = true := by
        obtain ⟨hclosed, -⟩ | ⟨-, hnext⟩ := FrameReader.isOpen_next hread
        · cases hr.isOpen.symm.trans hclosed
        · exact hnext
      have hreads : Session.ReadsOn
          { Session.start id { channel with reader := next } with received := UInt64.ofNat size }
          id next (ReadOutcome.count 0 (.message message size)) :=
        ⟨rfl, rfl, hstays.symm, (UInt64.zero_add _).symm⟩
      exact SharedClient.follow_reads hlater hreads s.client _ _ _
  · right
    refine ⟨rfl, hunfinished, ?_⟩
    rw [hrun, Client.greeted?, hunfinished.waits hr hsource]
    rfl

def plainUtterance : Bytes :=
  Bytes.ofNat numberLength 1 ++ field (Recorded.encode KeyExchangeAlgorithm.identity.descriptor) ++
    field [] ++ Bytes.ofNat numberLength 1 ++
    field (Recorded.encode SymmetricAlgorithm.identity.descriptor) ++
    field (Recorded.encode (⟨[], []⟩ : KeyPackage))

def spokenFirst : Bytes :=
  (((plainChannel 128).writer.performAll [(.message (.identity (.ofNat 9)), fun _ => 4),
    (.message ⟨5, none, [1, 2]⟩, fun _ => 4)]).map fun out => out.2.sink.taken).getD []

/-- A client that waits for messages with key 5 is opened by the identity frame, of which its
subscriber does not hear, and hears of the message behind it. -/
theorem only_identity_opens_subscriber :
    let s : SharedClient := ⟨(Client.new .unencrypted .empty).subscribe 5, []⟩
    let heard := negotiate (s.client.party fun _ => 7) [.data (plainUtterance ++ spokenFirst)]
      .endless
    ∃ link s' s'', heard.result = .ok link ∧ heard.source.Delivers spokenFirst (.behind true) ∧
      s.client.slot.state = .disconnected ∧
      s.follow (s.connecting (.ofLink link s.client.config.maxFrame heard.source)) = some s' ∧
      s'.client.slot.state = .connected ∧ s'.client.notes = [] ∧
      s'.follow [.read 0] = some s'' ∧
      s''.client.notes = [⟨0, ⟨5, none, [1, 2]⟩, ⟨.ofNat 9, 48⟩⟩] := by
  intro s heard
  have hrun : heard.source = [.data spokenFirst] ∧
      (heard.result.toOption.bind fun link => (Channel.ofLink link s.client.config.maxFrame
        heard.source).reader.readMany 2) =
          some [.message (.identity (.ofNat 9)) 48, .message ⟨5, none, [1, 2]⟩ 48] := by
    decide +kernel
  obtain ⟨hsource, hmany⟩ := hrun
  obtain ⟨link, hresult, hmany⟩ := Option.bind_eq_some_iff.mp hmany
  have hlink : heard.result = .ok link := eq_ok_of_toOption hresult
  have hstream : heard.source.Delivers spokenFirst (.behind true) :=
    ⟨[spokenFirst], List.append_nil _, hsource⟩
  have hsource : (Channel.ofLink link s.client.config.maxFrame heard.source).reader.source.Delivers
      spokenFirst (.behind true) := by
    rw [Channel.source_ofLink]
    exact hstream
  obtain ⟨result, s', -, hunique, hfollow, hconcludes, hreads⟩ | ⟨hended, -⟩ :=
    only_identity_opens (.inl rfl) hlink hstream
  · obtain ⟨next, hread, -⟩ := FrameReader.exists_next hmany
    have hr : (Channel.ofLink link s.client.config.maxFrame heard.source).reader.Ready :=
      FrameReader.ready_of_block rfl (Handshake.block_of_negotiate hlink)
    have hfront := (FrameReader.readNext_iff hr hsource).mp ⟨next, hread⟩
    have hresult := hunique _ (.identity hfront rfl rfl)
    subst hresult
    obtain ⟨session, hid, hcount, hafter⟩ := hreads _ _ rfl 1 _ hmany
    obtain ⟨hstate, opened, hstarted, hreceived, hclient⟩ := hconcludes
    subst hclient
    exact ⟨link, _, _, hlink, hstream, rfl, hfollow, hstate, rfl, hafter, rfl⟩
  · cases hended

end CipherLink
