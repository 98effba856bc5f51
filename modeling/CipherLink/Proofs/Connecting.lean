import CipherLink.Client.Shared
import CipherLink.Frame.Steps
import CipherLink.Proofs.Sessions

/-!
# One connection at a time

A call of `connect` that is under way has the slot. No other call gets past its start in
the meantime, and nobody is connected except through the session that this call has
started. So at most one of the sessions of a client is connected, whoever shares it.
-/

namespace CipherLink

namespace Client

variable {c c' : Client} {h : Handle}

theorem publish_keeps (c : Client) (message : Message) (delivery : Delivery) :
    (c.publish message delivery).held = c.held ∧
      (c.publish message delivery).sessions = c.sessions := by
  rw [publish, Subscriptions.runAll_snd]
  generalize c.subscriptions.snapshot message.key = handlers
  induction handlers generalizing c with
  | nil => exact ⟨rfl, rfl⟩
  | cons handler handlers ih =>
    have hhandle : (handle message delivery handler c).2.held = c.held ∧
        (handle message delivery handler c).2.sessions = c.sessions := by
      cases handler with
      | note ordinal => exact ⟨rfl, rfl⟩
      | respond ticket =>
        rw [handle]
        split <;> exact ⟨rfl, rfl⟩
    obtain ⟨hheld, hsessions⟩ := ih (handle message delivery handler c).2
    exact ⟨hheld.trans hhandle.1, hsessions.trans hhandle.2⟩

theorem readOn_keeps (c : Client) (h : Handle) :
    (c.readOn h).2.held = c.held ∧ Session.Kept c.sessions (c.readOn h).2.sessions := by
  rw [readOn]
  split
  · exact ⟨rfl, Session.kept_refl _⟩
  · next session hsession =>
    obtain ⟨hid, hconnected⟩ := session.read_keeps
    have hkept := Session.kept_set hsession hid hconnected
    split
    · next next hread =>
      rw [hread] at hkept
      exact ⟨rfl, hkept⟩
    · next next hread =>
      rw [hread] at hkept
      exact ⟨rfl, hkept⟩
    · next message delivery next hread =>
      rw [hread] at hkept
      obtain ⟨hheld, hsessions⟩ := (c.setSession h next).publish_keeps message delivery
      rw [hheld, hsessions]
      exact ⟨rfl, hkept⟩

theorem sendOn_keeps {write : Session → Option (Except SessionError Nat × Session)}
    {result : Except SessionError Nat} (hsend : c.sendOn h write = some (result, c'))
    (hwrite : ∀ session next result, write session = some (result, next) →
      next.id = session.id ∧ next.isConnected = session.isConnected) :
    c'.held = c.held ∧ Session.Kept c.sessions c'.sessions := by
  rw [sendOn] at hsend
  split at hsend
  · cases hsend
    exact ⟨rfl, Session.kept_refl _⟩
  · next session hsession =>
    obtain ⟨⟨outcome, next⟩, hout, hafter⟩ := Option.map_eq_some_iff.mp hsend
    cases hafter
    obtain ⟨hid, hconnected⟩ := hwrite session next outcome hout
    exact ⟨rfl, Session.kept_set hsession hid fun h => hconnected ▸ h⟩

theorem state_eq_connecting : c.slot.state = .connecting ↔ c.held = .connecting := by
  rw [slot]
  split
  · next hheld => simp [hheld, Slot.state]
  · next hheld => simp [hheld, Slot.state]
  · next h hheld =>
    rw [hheld]
    cases c.sessions[h]? with
    | none => simp [Slot.state]
    | some session => by_cases hconnected : session.isConnected = true <;>
        simp [Slot.state, hconnected]

theorem state_of_connected {session : Session} (hheld : c.held = .active h)
    (hsession : c.sessions[h]? = some session) (hconnected : session.isConnected = true) :
    c.slot.state = .connected := by
  simp only [slot, hheld, hsession, Slot.state, hconnected, if_true]

theorem beginConnect_eq (c : Client) : c.beginConnect = match c.slot.state with
    | .connecting => .error .connecting
    | .connected => .error .alreadyConnected
    | .disconnected | .closed => .ok { c with held := .connecting } := by
  rw [beginConnect]
  cases c.slot with
  | idle => rfl
  | connecting => rfl
  | active session =>
    by_cases hconnected : session.isConnected = true <;> simp [Slot.state, hconnected]

theorem beginConnect_eq_ok (hbegins : c.beginConnect = .ok c') :
    (c.slot.state = .disconnected ∨ c.slot.state = .closed) ∧
      c' = { c with held := .connecting } := by
  rw [beginConnect_eq] at hbegins
  split at hbegins
  · cases hbegins
  · cases hbegins
  · next hstate =>
    cases hbegins
    exact ⟨.inl hstate, rfl⟩
  · next hstate =>
    cases hbegins
    exact ⟨.inr hstate, rfl⟩

theorem beginConnect_eq_error {cause : ClientError} (hrefused : c.beginConnect = .error cause) :
    cause = .connecting ∧ c.slot.state = .connecting ∨
      cause = .alreadyConnected ∧ c.slot.state = .connected := by
  rw [beginConnect_eq] at hrefused
  split at hrefused
  · next hstate =>
    cases hrefused
    exact .inl ⟨rfl, hstate⟩
  · next hstate =>
    cases hrefused
    exact .inr ⟨rfl, hstate⟩
  · cases hrefused
  · cases hrefused

theorem abandonConnect_eq (hheld : c.held = .connecting) :
    c.abandonConnect = { c with held := .idle } := by
  rw [abandonConnect, hheld]

inductive Advanced (c : Client) : ConnectCall → ConnectCall → Client → Prop
  | waits {call next : ConnectCall} (hcall : call.isUnderWay = true)
      (hnext : next.isUnderWay = true) (hfrom : call.session? = none)
      (hto : next.session? = none) (hnew : next ≠ .dialling) : Advanced c call next c
  | starts {channel : Channel} {session : Session} :
      greeted? channel = some (.ok session) → Advanced c (.greeting channel)
        (.opened c.sessions.length) { c with sessions := c.sessions ++ [session] }
  | completes (h : Handle) : Advanced c (.opened h) (.connected h) (c.completeConnect h)
  | abandons (cause : Option ClientError) :
      Advanced c (.failing cause) (.failed cause) c.abandonConnect

theorem Advanced.isUnderWay {call next : ConnectCall} (h : c.Advanced call next c') :
    call.isUnderWay = true := by
  cases h with
  | waits hcall => exact hcall
  | starts | completes | abandons => rfl

theorem Advanced.length_le {call next : ConnectCall} (h : c.Advanced call next c') :
    c.sessions.length ≤ c'.sessions.length := by
  cases h with
  | waits | completes => exact Nat.le_refl _
  | starts hgreeted =>
    rw [List.length_append]
    exact Nat.le_add_right _ _
  | abandons cause =>
    rw [abandonConnect]
    split <;> exact Nat.le_refl _

theorem advanced_of_advance {call next : ConnectCall} {event : CallEvent}
    (hadvance : c.advance call event = some (next, c')) : c.Advanced call next c' := by
  rw [advance.eq_def] at hadvance
  split at hadvance
  · cases hadvance
    exact .waits rfl rfl rfl rfl nofun
  · cases hadvance
    exact .waits rfl rfl rfl rfl nofun
  · cases hadvance
    exact .waits rfl rfl rfl rfl nofun
  · split at hadvance
    · cases hadvance
    · cases hadvance
      exact .waits rfl rfl rfl rfl nofun
    · next hgreeted =>
      cases hadvance
      exact .starts hgreeted
  · cases hadvance
    exact .waits rfl rfl rfl rfl nofun
  · cases hadvance
    exact .waits rfl rfl rfl rfl nofun
  · cases hadvance
    exact .waits rfl rfl rfl rfl nofun
  · cases hadvance
    exact .completes _
  · cases hadvance
    exact .abandons _
  · cases hadvance

end Client

theorem eq_of_getElem?_between {α : Type} {front back : List α} {a b c : α} {i : Nat}
    (hbefore : (front ++ a :: back)[i]? ≠ some c) (hafter : (front ++ b :: back)[i]? = some c) :
    i = front.length ∧ c = b := by
  by_cases hi : i = front.length
  · subst hi
    rw [List.getElem?_append_right (Nat.le_refl _), Nat.sub_self, List.getElem?_cons_zero] at hafter
    exact ⟨rfl, (Option.some.inj hafter).symm⟩
  · refine absurd ?_ hbefore
    rw [List.getElem?_append] at hafter ⊢
    split
    · next hlt => rwa [if_pos hlt] at hafter
    · next hlt =>
      obtain ⟨k, hk⟩ : ∃ k, i - front.length = k + 1 := ⟨i - front.length - 1, by omega⟩
      rw [if_neg hlt, hk] at hafter
      rwa [hk]

theorem eq_of_getElem?_concat {α : Type} {l : List α} {a b : α} {i : Nat}
    (h : (l ++ [b])[i]? = some a) : l[i]? = some a ∨ i = l.length ∧ a = b := by
  by_cases hlt : i < l.length
  · rw [List.getElem?_append_left hlt] at h
    exact .inl h
  · rw [List.getElem?_append_right (Nat.le_of_not_lt hlt), List.getElem?_singleton] at h
    split at h
    · next hzero =>
      cases h
      exact .inr ⟨by omega, rfl⟩
    · cases h

namespace SharedClient

variable {s s' : SharedClient} {m : ClientMove} {moves : List ClientMove}

inductive Moved (s : SharedClient) : SharedClient → Prop
  | refuses {cause : ClientError} (hrefused : s.client.beginConnect = .error cause) :
      Moved s { s with calls := s.calls ++ [.refused cause] }
  | begins {client : Client} (hbegins : s.client.beginConnect = .ok client) :
      Moved s ⟨client, s.calls ++ [.dialling]⟩
  | advances {front back : List ConnectCall} {call next : ConnectCall} {client : Client}
      (hcalls : s.calls = front ++ call :: back)
      (hadvanced : s.client.Advanced call next client) : Moved s ⟨client, front ++ next :: back⟩
  | uses {client : Client} (hheld : client.held = s.client.held)
      (hkept : Session.Kept s.client.sessions client.sessions) : Moved s { s with client }

theorem moved_of_move (hmove : s.move m = some s') : s.Moved s' := by
  cases m with
  | connect =>
    rw [move] at hmove
    split at hmove
    · next cause hrefused =>
      cases hmove
      exact .refuses hrefused
    · next client hbegins =>
      cases hmove
      exact .begins hbegins
  | call index event =>
    obtain ⟨call, hcall, hrest⟩ := Option.bind_eq_some_iff.mp hmove
    obtain ⟨⟨next, client⟩, hadvance, hsame⟩ := Option.bind_eq_some_iff.mp hrest
    cases hsame
    obtain ⟨hlt, hget⟩ := List.getElem?_eq_some_iff.mp hcall
    rw [List.set_eq_take_append_cons_drop, if_pos hlt]
    refine .advances ?_ (Client.advanced_of_advance hadvance)
    rw [← hget, List.getElem_cons_drop, List.take_append_drop]
  | stream h change =>
    cases hmove
    exact .uses rfl (Session.kept_modify _ h fun _ => ⟨rfl, id⟩)
  | read h =>
    cases hmove
    obtain ⟨hheld, hkept⟩ := s.client.readOn_keeps h
    exact .uses hheld hkept
  | send h message noise =>
    obtain ⟨⟨result, client⟩, hsend, hsame⟩ := Option.bind_eq_some_iff.mp hmove
    cases hsame
    obtain ⟨hheld, hkept⟩ := Client.sendOn_keeps hsend fun _ _ _ => Session.send_eq_some
    exact .uses hheld hkept
  | sendEmpty h noise =>
    obtain ⟨⟨result, client⟩, hsend, hsame⟩ := Option.bind_eq_some_iff.mp hmove
    cases hsame
    obtain ⟨hheld, hkept⟩ := Client.sendOn_keeps hsend fun _ _ _ => Session.sendEmpty_eq_some
    exact .uses hheld hkept
  | close h =>
    cases hmove
    exact .uses rfl (Session.kept_modify _ h fun _ => ⟨rfl, nofun⟩)

/-- Whether the slot is taken by one call under way or by none, and nobody is connected
except through the slot or this call. -/
structure Exclusive (s : SharedClient) : Prop where
  turns : s.underWay = if s.client.held = .connecting then 1 else 0
  live : ∀ (h : Handle) (session : Session), s.client.sessions[h]? = some session →
    session.isConnected = true → s.client.held = .active h ∨ .opened h ∈ s.calls
  placed : ∀ h : Handle, .opened h ∈ s.calls → h < s.client.sessions.length

theorem exclusive_new (config : LinkConfig) (files : KeyFiles) : (new config files).Exclusive where
  turns := rfl
  live := by
    intro h session hsession
    cases hsession
  placed := nofun

section

variable {call : ConnectCall} {front back : List ConnectCall}

theorem underWay_pos (hcall : call ∈ s.calls) (hunderWay : call.isUnderWay = true) :
    0 < s.underWay :=
  List.countP_pos_iff.mpr ⟨call, hcall, hunderWay⟩

theorem Exclusive.connecting (hs : s.Exclusive) (hcall : call ∈ s.calls)
    (hunderWay : call.isUnderWay = true) : s.client.held = .connecting := by
  have hpos := underWay_pos hcall hunderWay
  have hturns := hs.turns
  split at hturns
  · next hheld => exact hheld
  · omega

theorem Exclusive.alone (hs : s.Exclusive) (hcalls : s.calls = front ++ call :: back)
    (hunderWay : call.isUnderWay = true) :
    s.client.held = .connecting ∧ (front ++ back).countP ConnectCall.isUnderWay = 0 := by
  have hheld := hs.connecting (hcalls ▸ List.mem_append_right _ List.mem_cons_self) hunderWay
  have hturns := hs.turns
  rw [if_pos hheld, underWay, hcalls, List.countP_append, List.countP_cons_of_pos hunderWay]
    at hturns
  rw [List.countP_append]
  exact ⟨hheld, by omega⟩

theorem Exclusive.opened (hs : s.Exclusive) (hcalls : s.calls = front ++ call :: back)
    (hunderWay : call.isUnderWay = true) {h : Handle} {session : Session}
    (hsession : s.client.sessions[h]? = some session) (hconnected : session.isConnected = true) :
    call = .opened h := by
  obtain ⟨hheld, hrest⟩ := hs.alone hcalls hunderWay
  obtain hactive | hopened := hs.live h session hsession hconnected
  · rw [hheld] at hactive
    cases hactive
  · rw [hcalls, List.mem_append, List.mem_cons, or_left_comm, ← List.mem_append] at hopened
    obtain hsame | hother := hopened
    · exact hsame.symm
    · exact absurd rfl (List.countP_eq_zero.mp hrest _ hother)

end

theorem Exclusive.unique (hs : s.Exclusive) {h h' : Handle} {a b : Session}
    (ha : s.client.sessions[h]? = some a) (hb : s.client.sessions[h']? = some b)
    (haconnected : a.isConnected = true) (hbconnected : b.isConnected = true) : h = h' := by
  -- An opened session has its call under way, and this call leaves no room for another.
  have hopened {i j : Handle} {session : Session} (hcall : .opened i ∈ s.calls)
      (hsession : s.client.sessions[j]? = some session) (hconnected : session.isConnected = true) :
      i = j := by
    obtain ⟨front, back, hcalls⟩ := List.append_of_mem hcall
    cases hs.opened hcalls rfl hsession hconnected
    rfl
  obtain hactive | hcall := hs.live h a ha haconnected
  · obtain hactive' | hcall' := hs.live h' b hb hbconnected
    · rw [hactive] at hactive'
      cases hactive'
      rfl
    · exact (hopened hcall' ha haconnected).symm
  · exact hopened hcall hb hbconnected

theorem Exclusive.quiet (hs : s.Exclusive)
    (hstate : s.client.slot.state = .disconnected ∨ s.client.slot.state = .closed)
    {h : Handle} {session : Session} (hsession : s.client.sessions[h]? = some session) :
    session.isConnected = false := by
  rw [← Bool.not_eq_true]
  intro hconnected
  obtain hheld | hopened := hs.live h session hsession hconnected
  · have hconnected := Client.state_of_connected hheld hsession hconnected
    simp [hconnected] at hstate
  · have hconnecting := Client.state_eq_connecting.mpr (hs.connecting hopened rfl)
    simp [hconnecting] at hstate

section

variable {front back : List ConnectCall} {call next : ConnectCall} {client : Client}

theorem Exclusive.count_advanced (hs : s.Exclusive) (hcalls : s.calls = front ++ call :: back)
    (hunderWay : call.isUnderWay = true) :
    (front ++ next :: back).countP ConnectCall.isUnderWay = if next.isUnderWay then 1 else 0 := by
  obtain ⟨-, hrest⟩ := hs.alone hcalls hunderWay
  rw [List.countP_append] at hrest
  rw [List.countP_append, List.countP_cons]
  omega

theorem Exclusive.turns_moved (hs : s.Exclusive) (hmoved : s.Moved s') :
    s'.underWay = if s'.client.held = .connecting then 1 else 0 := by
  cases hmoved with
  | refuses hrefused =>
    rw [← hs.turns, underWay, List.countP_append]
    rfl
  | begins hbegins =>
    obtain ⟨hstate, rfl⟩ := Client.beginConnect_eq_ok hbegins
    have hheld : s.client.held ≠ .connecting := by
      intro hheld
      simp [Client.state_eq_connecting.mpr hheld] at hstate
    have hturns := hs.turns
    rw [if_neg hheld] at hturns
    rw [underWay, List.countP_append, ← underWay, hturns]
    rfl
  | advances hcalls hadvanced =>
    have hheld := (hs.alone hcalls hadvanced.isUnderWay).1
    rw [underWay, hs.count_advanced hcalls hadvanced.isUnderWay]
    cases hadvanced with
    | waits hcall hnext =>
      rw [hnext, hheld]
      rfl
    | starts hgreeted =>
      rw [hheld]
      rfl
    | completes h => rfl
    | abandons cause =>
      rw [Client.abandonConnect_eq hheld]
      rfl
  | uses hheld hkept =>
    rw [hheld]
    exact hs.turns

theorem Exclusive.live_advanced (hs : s.Exclusive) (hcalls : s.calls = front ++ call :: back)
    (hadvanced : s.client.Advanced call next client) {h : Handle} {session : Session}
    (hsession : client.sessions[h]? = some session) (hconnected : session.isConnected = true) :
    client.held = .active h ∨ .opened h ∈ front ++ next :: back := by
  have hheld := (hs.alone hcalls hadvanced.isUnderWay).1
  have hopened {session : Session} (hold : s.client.sessions[h]? = some session)
      (hconnected : session.isConnected = true) : call = .opened h :=
    hs.opened hcalls hadvanced.isUnderWay hold hconnected
  -- A session that was connected before is the one of this call, so the call is at its end;
  -- all other steps take place before there is such a session.
  cases hadvanced with
  | waits hcall hnext hfrom =>
    rw [hopened hsession hconnected] at hfrom
    cases hfrom
  | starts hgreeted =>
    obtain hold | ⟨rfl, -⟩ := eq_of_getElem?_concat hsession
    · cases hopened hold hconnected
    · exact .inr (List.mem_append_right _ List.mem_cons_self)
  | completes h =>
    cases hopened hsession hconnected
    exact .inl rfl
  | abandons cause =>
    rw [Client.abandonConnect_eq hheld] at hsession
    cases hopened hsession hconnected

theorem Exclusive.live_moved (hs : s.Exclusive) (hmoved : s.Moved s') {h : Handle}
    {session : Session} (hsession : s'.client.sessions[h]? = some session)
    (hconnected : session.isConnected = true) :
    s'.client.held = .active h ∨ .opened h ∈ s'.calls := by
  cases hmoved with
  | refuses hrefused =>
    exact (hs.live h session hsession hconnected).imp_right (List.mem_append_left _)
  | begins hbegins =>
    obtain ⟨hstate, rfl⟩ := Client.beginConnect_eq_ok hbegins
    rw [hs.quiet hstate hsession] at hconnected
    cases hconnected
  | advances hcalls hadvanced => exact hs.live_advanced hcalls hadvanced hsession hconnected
  | uses hheld hkept =>
    obtain ⟨old, hold, -, hback⟩ := hkept.exists_old hsession
    rw [hheld]
    exact hs.live h old hold (hback hconnected)

theorem Exclusive.placed_moved (hs : s.Exclusive) (hmoved : s.Moved s') {h : Handle}
    (hopened : .opened h ∈ s'.calls) : h < s'.client.sessions.length := by
  cases hmoved with
  | refuses hrefused =>
    rw [List.mem_append, List.mem_singleton] at hopened
    exact hs.placed h (hopened.resolve_right nofun)
  | begins hbegins =>
    obtain ⟨-, rfl⟩ := Client.beginConnect_eq_ok hbegins
    rw [List.mem_append, List.mem_singleton] at hopened
    exact hs.placed h (hopened.resolve_right nofun)
  | advances hcalls hadvanced =>
    rw [List.mem_append, List.mem_cons, or_left_comm, ← List.mem_append] at hopened
    obtain rfl | hother := hopened
    · cases hadvanced with
      | waits hcall hnext hfrom hto => cases hto
      | starts hgreeted =>
        rw [List.length_append]
        exact Nat.lt_succ_self _
    · have hold : .opened h ∈ s.calls := by
        rw [hcalls, List.mem_append, List.mem_cons, or_left_comm, ← List.mem_append]
        exact .inr hother
      exact Nat.lt_of_lt_of_le (hs.placed h hold) hadvanced.length_le
  | uses hheld hkept =>
    have hlength := congrArg List.length hkept.1
    rw [List.length_map, List.length_map] at hlength
    rw [hlength]
    exact hs.placed h hopened

end

theorem Exclusive.moved (hs : s.Exclusive) (hmoved : s.Moved s') : s'.Exclusive where
  turns := hs.turns_moved hmoved
  live _ _ := hs.live_moved hmoved
  placed _ := hs.placed_moved hmoved

theorem follow_exclusive (hs : s.Exclusive) (hrun : s.follow moves = some s') :
    s'.Exclusive := by
  induction moves generalizing s with
  | nil =>
    cases hrun
    exact hs
  | cons m moves ih =>
    obtain ⟨next, hmove, hrest⟩ := Option.bind_eq_some_iff.mp hrun
    exact ih (hs.moved (moved_of_move hmove)) hrest

def Reaches (s s' : SharedClient) (index : Nat) (call : ConnectCall) : Prop :=
  s.calls[index]? ≠ some call ∧ s'.calls[index]? = some call

def Leaves (s s' : SharedClient) (index : Nat) : ConnectCall → Prop
  | .refused cause => s'.client = s.client ∧
      (cause = .connecting ∧ s.client.slot.state = .connecting ∨
        cause = .alreadyConnected ∧ s.client.slot.state = .connected)
  | .dialling => (s.client.slot.state = .disconnected ∨ s.client.slot.state = .closed) ∧
      s'.client = { s.client with held := .connecting }
  | .greeting _ | .failing _ => s'.client = s.client ∧ s.client.slot.state = .connecting
  | .opened h => s.client.slot.state = .connecting ∧ h = s.client.sessions.length ∧
      ∃ session, s'.client = { s.client with sessions := s.client.sessions ++ [session] }
  | .failed _ => s.client.slot.state = .connecting ∧
      s'.client = { s.client with held := .idle } ∧ s'.client.slot.state = .disconnected
  | .connected h => s.calls[index]? = some (.opened h) ∧ h < s.client.sessions.length ∧
      s'.client = { s.client with held := .active h }

theorem Exclusive.leaves (hs : s.Exclusive) (hmoved : s.Moved s') {index : Nat}
    {call : ConnectCall} (hreaches : s.Reaches s' index call) : s.Leaves s' index call := by
  obtain ⟨hbefore, hafter⟩ := hreaches
  -- What a call has come to is new, so the move is the one that has changed this call.
  cases hmoved with
  | refuses hrefused =>
    obtain hold | ⟨-, rfl⟩ := eq_of_getElem?_concat hafter
    · exact absurd hold hbefore
    · exact ⟨rfl, Client.beginConnect_eq_error hrefused⟩
  | begins hbegins =>
    obtain hold | ⟨-, rfl⟩ := eq_of_getElem?_concat hafter
    · exact absurd hold hbefore
    · exact Client.beginConnect_eq_ok hbegins
  | advances hcalls hadvanced =>
    have hheld := (hs.alone hcalls hadvanced.isUnderWay).1
    have hstate := Client.state_eq_connecting.mpr hheld
    rw [hcalls] at hbefore
    obtain ⟨rfl, rfl⟩ := eq_of_getElem?_between hbefore hafter
    cases hadvanced with
    | waits hcall hnext hfrom hto hnew =>
      cases call with
      | dialling => exact absurd rfl hnew
      | greeting channel | failing cause => exact ⟨rfl, hstate⟩
      | opened h | connected h => cases hto
      | refused cause | failed cause => cases hnext
    | @starts channel session hgreeted => exact ⟨hstate, rfl, session, rfl⟩
    | completes h =>
      refine ⟨?_, hs.placed h ?_, rfl⟩
      · rw [hcalls, List.getElem?_append_right (Nat.le_refl _), Nat.sub_self]
        rfl
      · rw [hcalls]
        exact List.mem_append_right _ List.mem_cons_self
    | abandons cause =>
      refine ⟨hstate, Client.abandonConnect_eq hheld, ?_⟩
      rw [Client.abandonConnect_eq hheld]
      rfl
  | uses hheld hkept => exact absurd hafter hbefore

theorem Exclusive.held_of_connected (hs : s.Exclusive) (hmoved : s.Moved s')
    (hstate : s.client.slot.state = .connected) : s'.client.held = s.client.held := by
  cases hmoved with
  | refuses hrefused => rfl
  | begins hbegins =>
    obtain ⟨hfree, -⟩ := Client.beginConnect_eq_ok hbegins
    simp [hstate] at hfree
  | advances hcalls hadvanced =>
    have hheld := (hs.alone hcalls hadvanced.isUnderWay).1
    rw [Client.state_eq_connecting.mpr hheld] at hstate
    cases hstate
  | uses hheld hkept => exact hheld

/-- Whatever is done to a client, at most one of its sessions is connected, and the slot is
taken while one call of `connect` is under way, and only then. A connected session keeps
the slot; a call that is refused changes nothing, one that fails or is dropped leaves the
client without a connection, and one that succeeds leaves it with the session that it has
started. -/
theorem one_connection {config : LinkConfig} {files : KeyFiles}
    (hrun : (new config files).follow moves = some s) :
    (∀ (h h' : Handle) (a b : Session), s.client.sessions[h]? = some a →
      s.client.sessions[h']? = some b → a.isConnected = true → b.isConnected = true → h = h') ∧
    s.underWay = (if s.client.slot.state = .connecting then 1 else 0) ∧
    ∀ m s', s.move m = some s' →
      (s.client.slot.state = .connected → s'.client.held = s.client.held) ∧
      ∀ index call, s.Reaches s' index call → s.Leaves s' index call := by
  have hs := follow_exclusive (exclusive_new config files) hrun
  refine ⟨?_, ?_, ?_⟩
  · intro h h' a b ha hb haconnected hbconnected
    exact hs.unique ha hb haconnected hbconnected
  · rw [hs.turns, ite_congr (propext Client.state_eq_connecting) (fun _ => rfl) (fun _ => rfl)]
  · intro m s' hmove
    have hmoved := moved_of_move hmove
    exact ⟨hs.held_of_connected hmoved, fun index call => hs.leaves hmoved⟩

def greetingChannel : Channel :=
  (plainChannel 128).arrive
    (((plainChannel 128).writer.frame? (.message (.identity (.ofNat 1))) fun _ => 7).getD [])

/-- A call that others cannot interrupt, a session that is closed, a call that is dropped,
and one that makes the second session. -/
theorem one_connection_made_again :
    let first : List ClientMove := [.connect, .connect, .call 0 (.dialled (.ok greetingChannel)),
      .call 0 .hears, .connect, .call 0 .ends, .connect, .close 0]
    let second : List ClientMove := [.connect, .call 4 .dropped, .call 4 .ends, .connect,
      .call 5 (.dialled (.ok greetingChannel)), .call 5 .hears, .call 5 .ends]
    ∃ s, (new .unencrypted .empty).follow (first ++ second) = some s ∧
      s.calls.map ConnectCall.session? = [some 0, none, none, none, none, some 1] ∧
      (∀ (h : Handle) (session : Session), s.client.sessions[h]? = some session →
        session.isConnected = true → h = 1) ∧
      s.underWay = 0 ∧ ∀ m s', s.move m = some s' → s'.client.held = .active 1 := by
  intro first second
  have hfinal : ((new .unencrypted .empty).follow (first ++ second)).map (fun s =>
      (s.calls.map ConnectCall.session?, s.client.held,
        (s.client.sessions[1]?).map Session.isConnected)) =
      some ([some 0, none, none, none, none, some 1], .active 1, some true) := by
    decide +kernel
  obtain ⟨s, hrun, hs⟩ := Option.map_eq_some_iff.mp hfinal
  simp only [Prod.mk.injEq] at hs
  obtain ⟨hcalls, hheld, hlast⟩ := hs
  obtain ⟨last, hsession, hconnected⟩ := Option.map_eq_some_iff.mp hlast
  obtain ⟨hunique, hturns, hmoves⟩ := one_connection hrun
  have hstate := Client.state_of_connected hheld hsession hconnected
  refine ⟨s, hrun, hcalls, ?_, ?_, ?_⟩
  · intro h session hother hlive
    exact hunique h 1 session last hother hsession hlive hconnected
  · rw [hturns, hstate]
    rfl
  · intro m s' hmove
    rw [(hmoves m s' hmove).1 hstate, hheld]

end SharedClient

end CipherLink
