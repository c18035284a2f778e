import Elegram.System.Answers
import Elegram.System.Transport
import Elegram.System.Truth

/-!
# Bytes refine frames

While the client receives the body of a frame at the slot after the one that takes its prefix, the
bytes of a `ByteSystem` do what the frames of a `System` do. `Transport.Carries` relates the framing
layer of the client and its links to the sessions of the system: what the client has received of a
frame and what is on its way to it are the replies on the last connection. `follows` says that the
system follows every prompt step, and `refines` that no run of prompt steps ends the server and that
each is one of the system, with the same client and the same database. `told_of_run` carries over to
the bytes what the system tells the user.
-/

namespace Elegram

open ReadCommitted Transition

/-! ### Lists in step -/

section Lists

variable {α β : Type} {R : α → β → Prop} {xs : List α} {ys : List β}

theorem forall₂_concat {x : α} {y : β} :
    List.Forall₂ R (xs ++ [x]) (ys ++ [y]) ↔ List.Forall₂ R xs ys ∧ R x y := by
  rw [← List.forall₂_reverse_iff, List.reverse_concat', List.reverse_concat', List.forall₂_cons,
    List.forall₂_reverse_iff, and_comm]

theorem forall₂_set {x : α} {y : β} (h : List.Forall₂ R xs ys) (hxy : R x y) (k : ℕ) :
    List.Forall₂ R (xs.set k x) (ys.set k y) := by
  induction h generalizing k with
  | nil => exact .nil
  | cons hhead htail ih =>
    cases k with
    | zero => exact .cons hxy htail
    | succ k => exact .cons hhead (ih k)

theorem exists_of_forall₂ {x : α} {k : ℕ} (h : List.Forall₂ R xs ys) (hx : xs[k]? = some x) :
    ∃ y, ys[k]? = some y ∧ R x y := by
  induction h generalizing k with
  | nil => cases hx
  | cons hhead htail ih =>
    cases k with
    | zero =>
      cases hx
      exact ⟨_, rfl, hhead⟩
    | succ k => exact ih hx

theorem getLast?_set {x x' : α} {k : ℕ} (hx : xs[k]? = some x) :
    (xs.set k x').getLast? = if k + 1 = xs.length then some x' else xs.getLast? := by
  have hlt := (List.getElem?_eq_some_iff.mp hx).1
  rw [List.getLast?_eq_getElem?, List.getLast?_eq_getElem?, List.length_set]
  split_ifs with hk
  · rw [← hk, Nat.add_sub_cancel, List.getElem?_set_self hlt]
  · rw [List.getElem?_set_ne (by omega)]

end Lists

/-! ### What the client receives -/

/-- What the client has received, or is about to, is what is left of the frames of the replies. -/
def Receives (pb : Protobuf) (framing : Session) (down : List UInt8) (outbox : List Reply) : Prop :=
  (∀ reply ∈ outbox, FitsInt pb reply.mesg) ∧
    (framing.bytesReaded = 0 ∧ framing.sock.incoming ++ down = replyFrames pb outbox ∨
      framing.bytesReaded = PREFIX_SIZE ∧ ∃ reply rest, outbox = reply :: rest ∧
        framing.messageSize = (pb.serialize reply.mesg).length ∧
        framing.sock.incoming ++ down = pb.serialize reply.mesg ++ replyFrames pb rest)

theorem Receives.adds {pb : Protobuf} {framing : Session} {l l' : Link} {v v' : Serving}
    (h : Receives pb framing l.down v.outbox) (hadds : Link.Adds pb l l' v v') :
    Receives pb framing l'.down v'.outbox := by
  obtain ⟨replies, houtbox, hdown, hfits⟩ := hadds
  have hframes : ∀ rs,
      replyFrames pb rs ++ replyFrames pb replies = replyFrames pb (rs ++ replies) :=
    fun rs => List.flatMap_append.symm
  rw [houtbox, hdown]
  refine ⟨fun reply hreply => (List.mem_append.mp hreply).elim (h.1 reply) (hfits reply), ?_⟩
  rcases h.2 with ⟨h0, hin⟩ | ⟨h9, reply, rest, hrest, hsize, hin⟩
  · refine .inl ⟨h0, ?_⟩
    rw [← List.append_assoc, hin, hframes]
  · refine .inr ⟨h9, reply, rest ++ replies, by rw [hrest, List.cons_append], hsize, ?_⟩
    rw [← List.append_assoc, hin, List.append_assoc, hframes]

namespace Transport

variable (P : Platform)

/-- The links do the work of the sessions, and the client receives the replies on the last one. -/
structure Carries (t : Transport) (sessions : List Serving) : Prop where
  links : List.Forall₂ (Link.Serves P) t.links sessions
  callbacks : t.framing.callbacks = []
  idle : t.framing.sock.connected = false → t.framing.bytesReaded = 0
  receives : t.framing.sock.connected = true → ∃ l v, t.links.getLast? = some l ∧
    sessions.getLast? = some v ∧ Receives P.pb t.framing l.down v.outbox

variable {P} {t : Transport} {sessions : List Serving}

/-- A session and its link move on. -/
theorem Carries.set (h : t.Carries P sessions) {k : ℕ} {l l' : Link} {v v' : Serving}
    (hl : t.links[k]? = some l) (hv : sessions[k]? = some v) (hserves : l'.Serves P v')
    (hadds : Link.Adds P.pb l l' v v') :
    ({ t with links := t.links.set k l' } : Transport).Carries P (sessions.set k v') := by
  refine ⟨forall₂_set h.links hserves k, h.callbacks, h.idle, fun hconn => ?_⟩
  obtain ⟨l₁, v₁, hl₁, hv₁, hreceives⟩ := h.receives hconn
  rw [getLast?_set hl, getLast?_set hv, h.links.length_eq]
  split_ifs with hk
  · refine ⟨l', v', rfl, rfl, ?_⟩
    rw [List.getLast?_eq_getElem?, h.links.length_eq, ← hk, Nat.add_sub_cancel, hl] at hl₁
    rw [List.getLast?_eq_getElem?, ← hk, Nat.add_sub_cancel, hv] at hv₁
    cases hl₁
    cases hv₁
    exact hreceives.adds hadds
  · exact ⟨l₁, v₁, hl₁, hv₁, hreceives⟩

/-- The last connection, while it is open. -/
theorem Carries.last (h : t.Carries P sessions) (hconn : t.framing.sock.connected = true) :
    ∃ links l front v, t.links = links ++ [l] ∧ sessions = front ++ [v] ∧
      List.Forall₂ (Link.Serves P) links front ∧ l.Serves P v ∧
      Receives P.pb t.framing l.down v.outbox := by
  obtain ⟨l, v, hl, hv, hreceives⟩ := h.receives hconn
  obtain ⟨links, hlinks⟩ := List.getLast?_eq_some_iff.mp hl
  obtain ⟨front, hfront⟩ := List.getLast?_eq_some_iff.mp hv
  have hall := h.links
  rw [hlinks, hfront, forall₂_concat] at hall
  exact ⟨links, l, front, v, hlinks, hfront, hall.1, hall.2, hreceives⟩

/-- Nothing of a frame has been received, or its prefix. -/
theorem Carries.bytesReaded (h : t.Carries P sessions) :
    t.framing.bytesReaded = 0 ∨ t.framing.bytesReaded = PREFIX_SIZE := by
  cases hconn : t.framing.sock.connected with
  | false => exact .inl (h.idle hconn)
  | true =>
    obtain ⟨_, _, -, -, -, ⟨h0, -⟩ | ⟨h9, -⟩⟩ := h.receives hconn
    · exact .inl h0
    · exact .inr h9

theorem Carries.open (h : t.Carries P sessions) (h0 : t.framing.bytesReaded = 0) :
    ∃ t', t.act P.pb .opened = some t' ∧ t'.Carries P (transmit sessions .opened) ∧
      t'.framing.sock.connected = true := by
  refine ⟨_, rfl, ⟨?_, h.callbacks, nofun, fun _ => ⟨.opened, .fresh, ?_, ?_, ?_⟩⟩, rfl⟩
  · exact forall₂_concat.mpr ⟨h.links, Link.serves_opened⟩
  · exact List.getLast?_concat ..
  · exact List.getLast?_concat ..
  · exact ⟨fun _ hreply => absurd hreply List.not_mem_nil, .inl ⟨h0, rfl⟩⟩

theorem Carries.close (h : t.Carries P sessions) (h0 : t.framing.bytesReaded = 0) :
    ∃ t', t.act P.pb .closed = some t' ∧ t'.Carries P (transmit sessions .closed) ∧
      t'.framing.sock.connected = false :=
  ⟨_, rfl, ⟨h.links, h.callbacks, fun _ => h0, nofun⟩, rfl⟩

theorem Carries.write (hpb : P.pb.Generated) (h : t.Carries P sessions)
    (hconn : t.framing.sock.connected = true) (id : ℕ) {mesg : Request}
    (hsend : Sendable P.pb mesg) :
    ∃ t', t.act P.pb (.written id mesg) = some t' ∧
      t'.Carries P (transmit sessions (.written id mesg)) ∧
      t'.framing.sock.connected = true := by
  obtain ⟨links, l, front, v, hlinks, hfront, hall, hserves, hreceives⟩ := h.last hconn
  have hact : t.act P.pb (.written id mesg) = some
      { framing := { t.framing with buffer := P.pb.frame (.request mesg) }
        links := links ++ [l.receive (P.pb.frame (.request mesg))] } := by
    rw [act, Session.request_eq hpb hsend.2, Option.bind_eq_bind, Option.bind_some]
    dsimp only
    rw [hlinks, List.modifyLast_concat]
  refine ⟨_, hact, ⟨?_, h.callbacks, h.idle, fun _ =>
    ⟨l.receive (P.pb.frame (.request mesg)), v.receive id mesg, ?_, ?_, hreceives⟩⟩, hconn⟩
  · rw [hfront, transmit, List.modifyLast_concat]
    exact forall₂_concat.mpr ⟨hall, hserves.receive hsend⟩
  · exact List.getLast?_concat ..
  · rw [hfront, transmit, List.modifyLast_concat]
    exact List.getLast?_concat ..

end Transport

/-! ### What the client does to its socket -/

namespace ClientAction

/-- The action is about the socket. -/
def OnSocket : ClientAction → Prop
  | .opened | .closed | .written .. => True
  | .received | .answered .. | .emitted .. => False

/-- A request that is written fits a frame. -/
def Short (pb : Protobuf) : ClientAction → Prop
  | .written _ mesg => (pb.serialize (.request mesg)).length < 2 ^ 31 - 9
  | _ => True

instance (pb : Protobuf) : DecidablePred (Short pb)
  | .written _ mesg =>
    inferInstanceAs (Decidable ((pb.serialize (.request mesg)).length < 2 ^ 31 - 9))
  | .opened | .closed | .received | .answered .. | .emitted .. => .isTrue trivial

end ClientAction

namespace Client

/-- How a step that does something to the socket leaves it. -/
inductive Does (before after : SocketState) : ClientAction → Prop
  | opened (hbefore : before ≠ .connected) (hafter : after = .connected) : Does before after .opened
  | closed (hbefore : before = .connected) (hafter : after ≠ .connected) : Does before after .closed
  | written {id : ℕ} {mesg : Request} (hbuilt : MessageFactory.Built mesg)
      (hbefore : before = .connected) (hafter : after = .connected) :
      Does before after (.written id mesg)

/-- A step records at most one action that is about the socket. -/
inductive News (log : List ClientAction) (socket : SocketState) (c : Client) : Prop
  | quiet {news : List ClientAction} (hlog : c.log = log ++ news)
      (hnews : ∀ a ∈ news, ¬ a.OnSocket) (hsocket : socket = .connected ↔ c.socket = .connected)
  | does {front back : List ClientAction} {a : ClientAction}
      (hlog : c.log = log ++ (front ++ a :: back)) (hfront : ∀ b ∈ front, ¬ b.OnSocket)
      (hback : ∀ b ∈ back, ¬ b.OnSocket) (ha : Does socket c.socket a)

theorem built_of_request {op : Operation} {mesg : Request} {job : Job}
    (h : op.request = some (mesg, job)) : MessageFactory.Built mesg := by
  cases op <;> cases h <;> constructor

theorem Moves.news {c c' : Client} {e : Event} (h : Moves c e c') : News c.log c.socket c' := by
  have hkept : ∀ {socket : SocketState}, (socket = c.socket ∨ c.socket ≠ .connected ∧
      socket ≠ .connected) → (c.socket = .connected ↔ socket = .connected) := by
    rintro socket (rfl | ⟨hne, hne'⟩)
    · exact Iff.rfl
    · exact iff_of_false hne hne'
  have hnil : ∀ b ∈ ([] : List ClientAction), ¬ b.OnSocket := fun b hb => absurd hb List.not_mem_nil
  cases h with
  | quiet _ _ _ _ hsocket _ =>
    exact .quiet (List.append_nil _).symm hnil (hkept hsocket)
  | refused => exact .quiet rfl (by simp [ClientAction.OnSocket]) Iff.rfl
  | told _ _ _ _ hsocket _ =>
    exact .quiet rfl (by simp [ClientAction.OnSocket]) (hkept (hsocket.imp_left And.right))
  | written _ hop _ hsocket =>
    exact .does rfl hnil hnil (.written (built_of_request hop) hsocket hsocket)
  | opened _ hsocket =>
    refine .does rfl hnil (by simp [ClientAction.OnSocket]) (.opened ?_ rfl)
    rw [hsocket]
    decide
  | closed _ before hsocket _ hbefore =>
    refine .does (List.append_assoc ..) (fun b hb => ?_) (by simp [ClientAction.OnSocket])
      (.closed hsocket nofun)
    rcases hbefore with rfl | rfl | ⟨err, rfl⟩
    · exact hnil b hb
    · rw [List.mem_singleton.mp hb]
      exact id
    · rw [List.mem_singleton.mp hb]
      exact id
  | answered => exact .quiet rfl (by simp [ClientAction.OnSocket]) Iff.rfl
  | chained _ hsocket =>
    exact .does (show _ = c.log ++ ([_, _] ++ _ :: []) from rfl) (by simp [ClientAction.OnSocket])
      hnil (.written .chats hsocket hsocket)
  | ignored => exact .quiet rfl (by simp [ClientAction.OnSocket]) Iff.rfl

theorem news_of_step {qt : Qt} {c c' : Client} {e : Event} (hsuspended : Suspended c.socket c.stack)
    (h : c.step qt e = some c') : News c.log c.socket c' := by
  rcases step_moves hsuspended h with hm | ⟨chatId, -, hm⟩
  · exact hm.news
  · exact hm.news

end Client

/-! ### The client moves on -/

namespace Transport

variable {P : Platform} {t : Transport} {sessions : List Serving}

theorem act_of_quiet {a : ClientAction} (h : ¬ a.OnSocket) (pb : Protobuf) (t : Transport)
    (sessions : List Serving) :
    t.act pb a = some t ∧ transmit sessions a = sessions := by
  cases a with
  | opened | closed | written _ _ => exact absurd trivial h
  | received | answered _ _ | emitted _ _ => exact ⟨rfl, rfl⟩

theorem acts_of_quiet {news : List ClientAction} (h : ∀ a ∈ news, ¬ a.OnSocket) (pb : Protobuf)
    (t : Transport) (sessions : List Serving) :
    t.acts pb news = some t ∧ news.foldl transmit sessions = sessions := by
  induction news with
  | nil => exact ⟨rfl, rfl⟩
  | cons a news ih =>
    obtain ⟨hact, htransmit⟩ := act_of_quiet (h a (List.mem_cons_self ..)) pb t sessions
    obtain ⟨hacts, htransmits⟩ := ih fun b hb => h b (List.mem_cons_of_mem _ hb)
    refine ⟨?_, ?_⟩
    · rw [acts, List.foldlM_cons, hact]
      exact hacts
    · rw [List.foldl_cons, htransmit, htransmits]

/-- What the client does to its socket keeps the links and the sessions together. -/
theorem Carries.act (hpb : P.pb.Generated) (h : t.Carries P sessions) {before after : SocketState}
    {a : ClientAction} (ha : Client.Does before after a)
    (hbefore : t.framing.sock.connected = true ↔ before = .connected)
    (hshort : a.Short P.pb)
    (hclosed : after ≠ .connected → t.framing.bytesReaded = 0) :
    ∃ t', t.act P.pb a = some t' ∧ t'.Carries P (transmit sessions a) ∧
      (t'.framing.sock.connected = true ↔ after = .connected) := by
  cases ha with
  | opened hne hafter =>
    have h0 := h.idle (Bool.eq_false_iff.mpr fun hconn => hne (hbefore.mp hconn))
    obtain ⟨t', hact, hcarries, hconn⟩ := h.open h0
    exact ⟨t', hact, hcarries, iff_of_true hconn hafter⟩
  | closed _ hafter =>
    obtain ⟨t', hact, hcarries, hconn⟩ := h.close (hclosed hafter)
    exact ⟨t', hact, hcarries, iff_of_false (by rw [hconn]; exact Bool.false_ne_true) hafter⟩
  | @written id mesg hbuilt hconnected hafter =>
    obtain ⟨t', hact, hcarries, hconn⟩ :=
      h.write hpb (hbefore.mpr hconnected) id ⟨hbuilt, hshort⟩
    exact ⟨t', hact, hcarries, iff_of_true hconn hafter⟩

/-- The client has made a step. -/
theorem Carries.follow (hpb : P.pb.Generated) (h : t.Carries P sessions)
    {log : List ClientAction} {socket : SocketState} {c : Client} (hnews : Client.News log socket c)
    (hsocket : t.framing.sock.connected = true ↔ socket = .connected)
    (hshort : ∀ a ∈ c.log.drop log.length, a.Short P.pb)
    (hclosed : c.socket ≠ .connected → t.framing.bytesReaded = 0) :
    ∃ t', t.acts P.pb (c.log.drop log.length) = some t' ∧
      t'.Carries P ((c.log.drop log.length).foldl transmit sessions) ∧
      (t'.framing.sock.connected = true ↔ c.socket = .connected) := by
  cases hnews with
  | quiet hlog hquiet hkept =>
    obtain ⟨hacts, htransmits⟩ := acts_of_quiet hquiet P.pb t sessions
    rw [hlog, List.drop_left]
    refine ⟨t, hacts, ?_, hsocket.trans hkept⟩
    rwa [htransmits]
  | @does front back a hlog hfront hback ha =>
    obtain ⟨t', hact, hcarries, hconn⟩ := h.act hpb ha hsocket
      (hshort a (by rw [hlog, List.drop_left]; simp)) hclosed
    obtain ⟨hacts, htransmits⟩ := acts_of_quiet hfront P.pb t sessions
    obtain ⟨hacts', htransmits'⟩ := acts_of_quiet hback P.pb t' (transmit sessions a)
    rw [hlog, List.drop_left]
    refine ⟨t', ?_, ?_, hconn⟩
    · rw [acts, List.foldlM_append, show front.foldlM (Transport.act P.pb) t = some t from hacts,
        Option.bind_eq_bind, Option.bind_some, List.foldlM_cons, hact]
      exact hacts'
    · rw [List.foldl_append, htransmits, List.foldl_cons, htransmits']
      exact hcarries

end Transport

/-! ### Data arrives -/

namespace Session

variable {pb : Protobuf}

/-- A message that has arrived as a whole is handed over, and the connection stays as it is. -/
theorem loadMesg_whole {s : Session} {mesg : Response}
    (hin : s.sock.incoming = pb.serialize (.response mesg)) (hfits : FitsInt pb (.response mesg))
    (hsize : s.messageSize = (pb.serialize (.response mesg)).length) :
    ∃ s', loadMesg pb s = some s' ∧ s'.sock = { s.sock with incoming := [] } ∧
      s'.callbacks = s.callbacks ++ [mesg] := by
  obtain ⟨⟨r, s₁⟩, hread⟩ := Option.isSome_iff_exists.mp (readMessage_isSome hfits s)
  obtain ⟨-, hr, hsock, hcb⟩ := readMessage_some hread
  simp only [hin, Int.toNat_natCast, List.take_length, List.drop_length] at hr hsock
  rw [pb.parse_serialize' hfits] at hr
  refine ⟨processResponse (.response mesg) s₁, ?_, ?_, ?_⟩
  · simp only [loadMesg, Option.bind_eq_bind, hsize, hread, Option.bind_some, hr]
  · simp only [processResponse, hsock]
  · simp only [processResponse, hcb]

/-- What the slot does while a frame is on its way: it waits, or hands over the response. -/
structure SlotRan (pb : Protobuf) (s s' : Session) (down : List UInt8) (r : Response) : Prop where
  connected : s'.sock.connected = s.sock.connected
  outcome : s'.callbacks = [] ∧
      (s'.bytesReaded = 0 ∧ s'.sock.incoming ++ down = pb.frame (.response r) ∨
        s'.bytesReaded = PREFIX_SIZE ∧
          s'.messageSize = (pb.serialize (.response r)).length ∧
          s'.sock.incoming ++ down = pb.serialize (.response r)) ∨
    s'.callbacks = [r] ∧ s'.bytesReaded = 0 ∧ s'.sock.incoming = [] ∧ down = []

/-- The slot when nothing of the frame has been taken. -/
theorem onReadyRead_frame (hpb : pb.Generated) {s s' : Session} {down : List UInt8} {r : Response}
    (hfits : FitsInt pb (.response r)) (hcb : s.callbacks = []) (h0 : s.bytesReaded = 0)
    (hin : s.sock.incoming ++ down = pb.frame (.response r)) (h : s.onReadyRead pb = some s') :
    SlotRan pb s s' down r := by
  have hpos : 0 < (pb.serialize (.response r)).length := hpb.serialize_pos fun h => by cases h
  have hlt' : (pb.serialize (.response r)).length < 2 ^ 64 := hfits.trans (by decide)
  have hne := Protobuf.byteSize_ne hpos hlt'
  have hsize := Protobuf.toNat_byteSize hlt'
  have hhead := length_serializePrefix hne
  by_cases hshort : s.sock.incoming.length < PREFIX_SIZE
  · rw [onReadyRead_prefix_incomplete h0 hshort] at h
    cases h
    exact ⟨rfl, .inl ⟨hcb, .inl ⟨h0, hin⟩⟩⟩
  · -- the prefix is there
    have hhead' : serializePrefix (pb.byteSize (.response r)) <+: s.sock.incoming := by
      refine List.prefix_of_prefix_length_le ?_ ⟨down, hin⟩ (by omega)
      exact ⟨_, rfl⟩
    obtain ⟨rest, hrest⟩ := hhead'
    rw [Protobuf.frame, ← hrest, List.append_assoc] at hin
    have hbody : rest ++ down = pb.serialize (.response r) := List.append_cancel_left hin
    have htaken : s.prefixTaken.sock.incoming = rest := by
      rw [prefixTaken, ← hrest, List.drop_left' hhead]
    have hslot := onReadyRead_prefix pb hne (by rw [hsize]; exact hfits) h0 hrest.symm
    rw [hslot] at h
    split_ifs at h with hall
    · have hdown : down = [] := by
        have hlen := congrArg List.length hbody
        rw [List.length_append] at hlen
        exact List.length_eq_zero_iff.mp (by omega)
      rw [hdown, List.append_nil] at hbody
      have hincoming : ({ s.prefixTaken with
          messageSize := (pb.byteSize (.response r)).toNat } : Session).sock.incoming =
          pb.serialize (.response r) := htaken.trans hbody
      obtain ⟨s₁, hload, hsock, hresponse⟩ := loadMesg_whole hincoming hfits (by rw [hsize])
      rw [hload, Option.bind_some] at h
      cases h
      refine ⟨by rw [hsock]; rfl, .inr ⟨hresponse.trans ?_, rfl, by rw [hsock], hdown⟩⟩
      exact (congrArg (· ++ [r]) hcb :)
    · cases h
      exact ⟨rfl, .inl ⟨hcb, .inr ⟨rfl, by rw [hsize], by rw [htaken]; exact hbody⟩⟩⟩

/-- The slot when the prefix has been taken and the body is there. -/
theorem onReadyRead_rest {s s' : Session} {down : List UInt8} {r : Response}
    (hfits : FitsInt pb (.response r)) (hcb : s.callbacks = []) (h9 : s.bytesReaded = PREFIX_SIZE)
    (hsize : s.messageSize = (pb.serialize (.response r)).length)
    (hin : s.sock.incoming ++ down = pb.serialize (.response r))
    (hall : s.messageSize ≤ s.sock.incoming.length) (h : s.onReadyRead pb = some s') :
    SlotRan pb s s' down r := by
  have hdown : down = [] := by
    have hlen := congrArg List.length hin
    rw [List.length_append] at hlen
    exact List.length_eq_zero_iff.mp (by omega)
  rw [hdown, List.append_nil] at hin
  obtain ⟨s₁, hload, hsock, hresponse⟩ := loadMesg_whole hin hfits hsize
  rw [onReadyRead_body h9 hall, hload, Option.bind_some] at h
  cases h
  refine ⟨by rw [hsock], .inr ⟨?_, rfl, by rw [hsock], hdown⟩⟩
  rw [hresponse, hcb]
  rfl

end Session

namespace Receives

variable {pb : Protobuf} {framing framing' : Session} {down : List UInt8}

/-- What is on its way is that of a reply. -/
theorem exists_reply {outbox : List Reply} (h : Receives pb framing down outbox) (hdown : down ≠ [])
    (hsingle : outbox.length ≤ 1) : ∃ reply, outbox = [reply] := by
  cases outbox with
  | nil =>
    rcases h.2 with ⟨-, hin⟩ | ⟨-, reply, rest, hrest, -, -⟩
    · exact absurd (List.append_eq_nil_iff.mp hin).2 hdown
    · cases hrest
  | cons reply rest =>
    rw [List.length_cons] at hsingle
    obtain rfl : rest = [] := List.length_eq_zero_iff.mp (by omega)
    exact ⟨reply, rfl⟩

/-- The slot while a reply is on its way. -/
theorem slot (hpb : pb.Generated) {reply : Reply} {r : Response}
    (h : Receives pb framing down [reply]) (hr : reply.mesg = .response r)
    (hcb : framing.callbacks = []) {n : ℕ} (hle : n ≤ down.length)
    (hprompt : framing.bytesReaded = PREFIX_SIZE →
      framing.messageSize ≤ (framing.sock.incoming.length + n : ℕ))
    (hread : framing.readyRead pb (down.take n) = some framing') :
    Session.SlotRan pb (framing.arrive (down.take n)) framing' (down.drop n) r := by
  have hfits : FitsInt pb (.response r) := hr ▸ h.1 reply (List.mem_singleton_self _)
  have harrive : ∀ rest, framing.sock.incoming ++ down = rest →
      (framing.arrive (down.take n)).sock.incoming ++ down.drop n = rest := by
    rintro rest rfl
    rw [Session.arrive, List.append_assoc, List.take_append_drop]
  rcases h.2 with ⟨h0, hin⟩ | ⟨h9, reply', rest, hrest, hsize, hin⟩
  · rw [replyFrames, List.flatMap_singleton, hr] at hin
    exact Session.onReadyRead_frame hpb hfits hcb h0 (harrive _ hin) hread
  · cases hrest
    rw [hr] at hsize hin
    rw [replyFrames, List.flatMap_nil, List.append_nil] at hin
    refine Session.onReadyRead_rest hfits hcb h9 hsize (harrive _ hin) ?_ hread
    have hlen : (framing.arrive (down.take n)).sock.incoming.length =
        framing.sock.incoming.length + n := by
      rw [Session.arrive, List.length_append, List.length_take, Nat.min_eq_left hle]
    rw [hlen]
    exact hprompt h9

end Receives

/-- The slot waits for more of the reply, or there is nothing left of it. -/
theorem Session.SlotRan.receives {pb : Protobuf} {s s' : Session} {down : List UInt8} {r : Response}
    (h : s.SlotRan pb s' down r) {reply : Reply} (hr : reply.mesg = .response r)
    (hfits : FitsInt pb reply.mesg) :
    s'.callbacks = [] ∧ Receives pb { s' with callbacks := [] } down [reply] ∨
      s'.callbacks = [r] ∧ s'.bytesReaded = 0 ∧
        Receives pb { s' with callbacks := [] } down [] := by
  rcases h.outcome with ⟨hcb, hwaits⟩ | ⟨hcb, h0, hincoming, hdown⟩
  · refine .inl ⟨hcb, fun reply' hmem => List.mem_singleton.mp hmem ▸ hfits, ?_⟩
    rcases hwaits with ⟨h0, hin⟩ | ⟨h9, hsize, hin⟩
    · refine .inl ⟨h0, ?_⟩
      rw [replyFrames, List.flatMap_singleton, hr]
      exact hin
    · refine .inr ⟨h9, reply, [], rfl, by rw [hr]; exact hsize, ?_⟩
      rw [replyFrames, List.flatMap_nil, List.append_nil, hr]
      exact hin
  · refine .inr ⟨hcb, h0, fun _ hmem => absurd hmem List.not_mem_nil, .inl ⟨h0, ?_⟩⟩
    rw [hdown]
    exact (List.append_nil _).trans hincoming

namespace Transport

variable {P : Platform} {t : Transport} {sessions : List Serving}

/-- The transport after the slot has run, without the response that it has handed over. -/
def received (t : Transport) (n : ℕ) (framing : Session) : Transport where
  framing := { framing with callbacks := [] }
  links := t.links.modifyLast (Link.read n)

/-- A slot of the client, while there is at most one reply on the open connection. -/
theorem Carries.readyRead (hpb : P.pb.Generated) {front : List Serving} {v : Serving}
    (h : t.Carries P (front ++ [v])) (hconn : t.framing.sock.connected = true)
    (hsingle : v.outbox.length ≤ 1)
    (hresponse : ∀ reply ∈ v.outbox, ∃ r, reply.mesg = .response r) {l : Link}
    (hl : t.links.getLast? = some l) {n : ℕ} (hn : 0 < n) (hle : n ≤ l.down.length)
    (hprompt : t.framing.bytesReaded = PREFIX_SIZE →
      t.framing.messageSize ≤ (t.framing.sock.incoming.length + n : ℕ)) {framing : Session}
    (hread : t.framing.readyRead P.pb (l.down.take n) = some framing) :
    framing.sock.connected = true ∧ ∃ reply r, v.outbox = [reply] ∧ reply.mesg = .response r ∧
      (framing.callbacks = [] ∧ (t.received n framing).Carries P (front ++ [v]) ∨
        framing.callbacks = [r] ∧ framing.bytesReaded = 0 ∧
          (t.received n framing).Carries P (front ++ [v.delivered])) := by
  obtain ⟨links, l', front', v', hlinks, hsessions, hall, hserves, hreceives⟩ := h.last hconn
  rw [hlinks, List.getLast?_concat, Option.some_inj] at hl
  subst hl
  obtain ⟨rfl, hv⟩ := List.append_inj' hsessions rfl
  obtain rfl := List.singleton_inj.mp hv
  have hdown : l'.down ≠ [] := List.ne_nil_of_length_pos (hn.trans_le hle)
  obtain ⟨reply, houtbox⟩ := hreceives.exists_reply hdown hsingle
  obtain ⟨r, hr⟩ := hresponse reply (by rw [houtbox]; exact List.mem_singleton_self _)
  rw [houtbox] at hreceives
  have hslot := hreceives.slot hpb hr h.callbacks hle hprompt hread
  have hconn' : framing.sock.connected = true := hslot.connected.trans hconn
  refine ⟨hconn', reply, r, houtbox, hr, ?_⟩
  -- the link and the session after that
  have hcarries : ∀ {v' : Serving}, (l'.read n).Serves P v' →
      Receives P.pb { framing with callbacks := [] } (l'.read n).down v'.outbox →
      (t.received n framing).Carries P (front ++ [v']) := by
    intro v' hserves' hreceives'
    have hmodify : t.links.modifyLast (Link.read n) = links ++ [l'.read n] := by
      rw [hlinks, List.modifyLast_concat]
    refine ⟨?_, rfl, fun hno => ?_, fun _ => ⟨l'.read n, v', ?_, List.getLast?_concat ..,
      hreceives'⟩⟩
    · rw [received, hmodify]
      exact forall₂_concat.mpr ⟨hall, hserves'⟩
    · rw [show (t.received n framing).framing.sock.connected = true from hconn'] at hno
      cases hno
    · rw [received, hmodify]
      exact List.getLast?_concat ..
  rcases hslot.receives hr (hreceives.1 reply (List.mem_singleton_self _)) with
    ⟨hcb, hwaits⟩ | ⟨hcb, h0, hnothing⟩
  · exact .inl ⟨hcb, hcarries (hserves.read n) (houtbox ▸ hwaits)⟩
  · refine .inr ⟨hcb, h0, hcarries (hserves.delivered n) ?_⟩
    rw [Serving.delivered, houtbox]
    exact hnothing

end Transport

/-! ### Following the bytes -/

/-- A call that has returned success has committed. -/
theorem Database.exists_commit {hashPassword : String → List UInt8} {d : Database hashPassword}
    {t : ℕ} {op : StorageCall} {result : op.Result} (h : d.returned t = some ⟨op, result⟩)
    (hop : op.Decides) (hsucceeded : op.succeeded result = true) :
    ∃ rows, d.committedBy t = [⟨op, rows⟩] := by
  obtain ⟨txn, htxn, hprog⟩ := Database.returned_eq_some h
  obtain ⟨-, committed, houtcome, hcommitted⟩ :=
    StorageMachine.outcome_of_run d.reached htxn hprog
  have hsome := (Database.decided_of_outcome hop houtcome).trans hsucceeded
  obtain ⟨rows, rfl⟩ := Option.isSome_iff_exists.mp hsome
  exact ⟨rows, hcommitted⟩

theorem Request.Suits.expects {request : Request} {logged : Bool} {r : Response}
    (h : request.Suits logged r) (hr : r ≠ .msgNotSet) : request.Expects r := by
  rcases h with ⟨-, -, hempty⟩ | ⟨-, hexpects⟩
  · exact absurd hempty hr
  · exact hexpects

namespace Client

variable {qt : Qt} {c c' : Client}

/-- The only request that a response leads to. -/
theorem mesg_of_frame (hsuspended : Suspended c.socket c.stack) {body : Option WrappedMessage}
    (h : c.step qt (.frame body) = some c') {id : ℕ} {mesg : Request}
    (hmem : .written id mesg ∈ c'.log.drop c.log.length) :
    mesg = MessageFactory.createAllMyChatsRequest := by
  obtain hm | ⟨chatId, h | ⟨h, -⟩, -⟩ := step_moves hsuspended h
  · generalize hbody : Event.frame body = e at hm
    cases hm with
    | written he => rcases he with rfl | ⟨chatId, rfl, -⟩ <;> cases hbody
    | opened => cases hbody
    | closed _ before _ _ hbefore =>
      rw [List.append_assoc, List.drop_left] at hmem
      rcases hbefore with rfl | rfl | ⟨err, rfl⟩ <;> simp at hmem
    | quiet =>
      rw [List.drop_length] at hmem
      cases hmem
    | chained =>
      rw [List.drop_left] at hmem
      exact (show id = c.requests ∧ mesg = _ by simpa using hmem).2
    | refused | told | answered | ignored =>
      rw [List.drop_left] at hmem
      simp at hmem
  · cases h
  · cases h

end Client

theorem System.setSession_self {hashPassword : String → List UInt8} {t : System hashPassword}
    {k : ℕ} {v : Serving} (hv : t.sessions[k]? = some v) : t.setSession k v = t := by
  obtain ⟨hlt, rfl⟩ := List.getElem?_eq_some_iff.mp hv
  rw [System.setSession, List.set_getElem_self hlt]

namespace ByteSystem

variable {hashPassword : String → List UInt8} (P : Platform) (qt : Qt)

/-- What a run is assumed to do: requests and responses are short, the body of a frame is there when
the slot runs after the one that has taken its prefix, and the connection does not end between the
two. -/
def Prompt (s : ByteSystem hashPassword) : Event → Prop
  | .client e => ∀ c ∈ s.client.step qt e,
      (∀ a ∈ c.log.drop s.client.log.length, a.Short P.pb) ∧
        (s.transport.framing.bytesReaded = PREFIX_SIZE → c.socket = .connected)
  | .readyRead n => s.transport.framing.bytesReaded = PREFIX_SIZE →
      s.transport.framing.messageSize ≤ (s.transport.framing.sock.incoming.length + n : ℕ)
  | .peer k e => ∀ l ∈ s.transport.links[k]?, l.WritesShort P e
  | _ => True

instance (s : ByteSystem hashPassword) : DecidablePred (s.Prompt P qt)
  | .client e => inferInstanceAs (Decidable (∀ c ∈ s.client.step qt e,
      (∀ a ∈ c.log.drop s.client.log.length, a.Short P.pb) ∧
        (s.transport.framing.bytesReaded = PREFIX_SIZE → c.socket = .connected)))
  | .readyRead n => inferInstanceAs (Decidable (s.transport.framing.bytesReaded = PREFIX_SIZE →
      s.transport.framing.messageSize ≤ (s.transport.framing.sock.incoming.length + n : ℕ)))
  | .peer k e => inferInstanceAs (Decidable (∀ l ∈ s.transport.links[k]?, l.WritesShort P e))
  | .accept _ | .call .. | .resume .. | .database _ => .isTrue trivial

/-- The bytes are where the frames of `t` are. -/
structure Refines (s : ByteSystem hashPassword) (t : System hashPassword) : Prop where
  client : t.client = s.client
  database : t.database = s.database
  running : s.terminated = false
  carries : s.transport.Carries P t.sessions
  socket : s.transport.framing.sock.connected = true ↔ s.client.socket = .connected

variable {P qt} {s s' : ByteSystem hashPassword} {t : System hashPassword}

theorem initial_refines :
    (initial : ByteSystem hashPassword).Refines P (System.initial : System hashPassword) where
  client := rfl
  database := rfl
  running := rfl
  carries := ⟨.nil, rfl, fun _ => rfl, fun h => by cases h⟩
  socket := iff_of_false nofun nofun

/-- A session and its link move on. -/
theorem Refines.set (h : s.Refines P t) {k : ℕ} {l l' : Link} {v v' : Serving}
    (hl : s.transport.links[k]? = some l) (hv : t.sessions[k]? = some v) (hserves : l'.Serves P v')
    (hadds : Link.Adds P.pb l l' v v') :
    (s.setLink k l').Refines P (t.setSession k v') :=
  ⟨h.client, h.database, h.running, h.carries.set hl hv hserves hadds, h.socket⟩

/-- The client moves on. -/
theorem Refines.follow (hpb : P.pb.Generated) (h : s.Refines P t) {c : Client}
    (hnews : Client.News s.client.log s.client.socket c)
    (hshort : ∀ a ∈ c.log.drop s.client.log.length, a.Short P.pb)
    (hclosed : c.socket ≠ .connected → s.transport.framing.bytesReaded = 0)
    (hstep : s.follow P c = some s') : s'.Refines P (t.follow c) := by
  obtain ⟨transport, hacts, hcarries, hsocket⟩ :=
    h.carries.follow hpb hnews h.socket hshort hclosed
  rw [ByteSystem.follow, hacts] at hstep
  cases hstep
  refine ⟨rfl, h.database, h.running, ?_, hsocket⟩
  rw [System.follow, h.client]
  exact hcarries

/-- The slot of the client. -/
theorem Refines.readyRead (hpb : P.pb.Generated) (h : s.Refines P t) (hlinked : t.Linked) {n : ℕ}
    (hprompt : s.Prompt P qt (.readyRead n)) (hstep : s.onReadyRead P qt n = some s') :
    s'.Refines P t ∨ ∃ t', t.step qt .deliver = some t' ∧ s'.Refines P t' := by
  simp only [onReadyRead, Option.bind_eq_bind, Option.bind_eq_some_iff] at hstep
  obtain ⟨l, hl, hstep⟩ := hstep
  split_ifs at hstep with hcan
  obtain ⟨hstack, hconn, hn, hle⟩ := hcan
  obtain ⟨framing, hread, hstep⟩ := Option.bind_eq_some_iff.mp hstep
  have hsocket := h.socket.mp hconn
  obtain ⟨front, v, hsessions, -⟩ := hlinked.live (h.client ▸ hsocket)
  have hstage := hlinked.stages v (by simp [hsessions])
  have hcarries := h.carries
  rw [hsessions] at hcarries
  have hsingle : v.outbox.length ≤ 1 := by
    have hpending := hstage.single
    simp only [Serving.pending, List.length_append, List.length_map] at hpending
    omega
  have hresponse : ∀ reply ∈ v.outbox, ∃ r, reply.mesg = .response r := fun reply hmem => by
    obtain ⟨_, r, hmesg, -⟩ := hstage.outbox reply hmem
    exact ⟨r, hmesg⟩
  obtain ⟨hconn', reply, r, houtbox, hr, hcases⟩ :=
    hcarries.readyRead hpb hconn hsingle hresponse hl hn hle hprompt hread
  rcases hcases with ⟨hcb, hwaits⟩ | ⟨hcb, h0, hdelivered⟩
  · -- the frame is not there yet
    rw [react, hcb] at hstep
    dsimp only at hstep
    rw [if_pos hconn'] at hstep
    cases hstep
    exact .inl ⟨h.client, h.database, h.running, hsessions ▸ hwaits, iff_of_true hconn' hsocket⟩
  · -- the response is handed over
    rw [react, hcb] at hstep
    obtain ⟨c, hc, hstep⟩ := Option.bind_eq_some_iff.mp hstep
    have hsuspended := hlinked.converses.1
    rw [h.client] at hsuspended
    refine .inr ⟨({ t with sessions := front ++ [v.delivered] } : System hashPassword).follow c,
      ?_, ?_⟩
    · rw [System.step, hsessions, List.getLast?_concat]
      simp only [Option.bind_eq_bind, Option.bind_some, houtbox, List.head?_cons, hr, h.client]
      rw [show s.client.step qt (.frame (some (.response r))) = some c from hc, Option.bind_some,
        List.modifyLast_concat]
    · have hdelivers : ({ s with transport := s.transport.received n framing } :
          ByteSystem hashPassword).Refines P { t with sessions := front ++ [v.delivered] } :=
        ⟨h.client, h.database, h.running, hdelivered, iff_of_true hconn' hsocket⟩
      refine hdelivers.follow hpb (Client.news_of_step hsuspended hc) (fun a hmem => ?_)
        (fun _ => h0) hstep
      cases a with
      | written id mesg =>
        rw [Client.mesg_of_frame hsuspended hc hmem, ClientAction.Short, hpb]
        decide
      | _ => trivial

/-- A step of the client without data. -/
theorem Refines.client_step (hpb : P.pb.Generated) (h : s.Refines P t) (hlinked : t.Linked)
    {e : Client.Event} (he : ∀ body, e ≠ .frame body) (hprompt : s.Prompt P qt (.client e))
    {c : Client} (hc : s.client.step qt e = some c) (hstep : s.follow P c = some s') :
    t.step qt (.client e) = some (t.follow c) ∧ s'.Refines P (t.follow c) := by
  have hsuspended := hlinked.converses.1
  rw [h.client] at hsuspended
  obtain ⟨hshort, hopen⟩ := hprompt c hc
  refine ⟨?_, h.follow hpb (Client.news_of_step hsuspended hc) hshort (fun hne => ?_) hstep⟩
  · rw [← h.client] at hc
    cases e with
    | frame body => exact absurd rfl (he body)
    | _ => exact congrArg (Option.map t.follow) hc
  · rcases h.carries.bytesReaded with h0 | h9
    · exact h0
    · exact absurd (hopen h9) hne

/-- The server accepts a connection. -/
theorem Refines.accept (h : s.Refines P t) {k : ℕ} {l : Link} {r : Except Crash ClientSession}
    (hl : s.transport.links[k]? = some l) (hr : l.session.handle P .start = some r) :
    (s.settle k (r.map fun session => { l with session := session })).Refines P t := by
  obtain ⟨v, hv, hserves⟩ := exists_of_forall₂ h.carries.links hl
  obtain ⟨session, rfl, hserves'⟩ := hserves.accept hr
  have hset := h.set hl hv hserves' (.same P.pb rfl rfl)
  rwa [System.setSession_self hv] at hset

/-- A handler or an operation of a job, but for a storage call. -/
theorem Refines.peer (hP : 2 ^ 31 + 8 ≤ P.memory) (hpb : P.pb.Generated) (h : s.Refines P t)
    {k : ℕ} {l : Link} {e : PeerEvent} {r : Except Crash Link}
    (hl : s.transport.links[k]? = some l) (hshort : l.WritesShort P e) (hr : l.step P e = some r) :
    (s.settle k r).Refines P t ∨
      ∃ f t', t.step qt f = some t' ∧ (s.settle k r).Refines P t' := by
  obtain ⟨v, hv, hserves⟩ := exists_of_forall₂ h.carries.links hl
  obtain ⟨l', v', rfl, hv', hserves', hadds⟩ := hserves.step hP hpb hshort hr
  have hset := h.set hl hv hserves' hadds
  rcases hv' with rfl | htake | hoperate
  · rw [System.setSession_self hv] at hset
    exact .inl hset
  · refine .inr ⟨.take k, _, ?_, hset⟩
    simp only [System.step, Option.bind_eq_bind, hv, Option.bind_some, htake]
  · refine .inr ⟨.operate k, _, ?_, hset⟩
    simp only [System.step, Option.bind_eq_bind, hv, Option.bind_some, hoperate]

/-- A job calls a storage function. -/
theorem Refines.call (h : s.Refines P t) {k i : ℕ} {l : Link} {c : StorageCall}
    (hl : s.transport.links[k]? = some l) (hc : l.call i = some c) (hwaiting : l.waiting = none) :
    ∃ t', t.step qt (.operate k) = some t' ∧
      ({ s.setLink k { l with waiting := some s.database.calls } with
        database := s.database.call c } : ByteSystem hashPassword).Refines P t' := by
  obtain ⟨v, hv, hserves⟩ := exists_of_forall₂ h.carries.links hl
  obtain ⟨id, w, hoperate, hw⟩ := hserves.call hc hwaiting
  obtain ⟨hserves', houtbox⟩ := hw s.database.calls
  have hset := h.set hl hv hserves' (.same P.pb rfl houtbox)
  refine ⟨{ t.setSession k (w s.database.calls) with
    database := s.database.call c
    started := t.started ++ [(id, s.database.calls)] }, ?_,
    ⟨hset.client, rfl, hset.running, hset.carries, hset.socket⟩⟩
  simp only [System.step, Option.bind_eq_bind, hv, Option.bind_some, hoperate, h.database]

/-- A storage function returns to the job that has called it. -/
theorem Refines.resume (hP : 2 ^ 31 + 8 ≤ P.memory) (hpb : P.pb.Generated) (h : s.Refines P t)
    {k i n : ℕ} {l : Link} {c : StorageCall} {result : c.Result} {r : Except Crash Link}
    (hl : s.transport.links[k]? = some l) (hc : l.call i = some c) (hn : l.waiting = some n)
    (hresult : s.database.result n c = some result)
    (hr : ({ l with waiting := none } : Link).handle P (.run i (returning c result)) = some r) :
    ∃ t', t.step qt (.resume k) = some t' ∧ (s.settle k r).Refines P t' := by
  obtain ⟨v, hv, hserves⟩ := exists_of_forall₂ h.carries.links hl
  obtain ⟨l', v', rfl, hresume, hserves', hadds⟩ := hserves.resume hP hpb hc hn hresult hr
  refine ⟨_, ?_, h.set hl hv hserves' hadds⟩
  simp only [System.step, Option.bind_eq_bind, hv, Option.bind_some, h.database, hresume]

/-- **Following.** The system follows a prompt step by a step of its own, or stays as it is. -/
theorem follows (hP : 2 ^ 31 + 8 ≤ P.memory) (hpb : P.pb.Generated) {e : Event}
    (h : s.Refines P t) (hlinked : t.Linked) (hprompt : s.Prompt P qt e)
    (hstep : s.step P qt e = some s') :
    s'.Refines P t ∨ ∃ f t', t.step qt f = some t' ∧ s'.Refines P t' := by
  have hrunning : ¬ s.terminated = true := by
    rw [h.running]
    exact Bool.false_ne_true
  simp only [step, if_neg hrunning] at hstep
  cases e with
  | client e =>
    cases e with
    | frame body => cases hstep
    | _ =>
      obtain ⟨c, hc, hstep⟩ := Option.bind_eq_some_iff.mp hstep
      exact .inr ⟨_, _, h.client_step hpb hlinked (fun _ he => by cases he) hprompt hc hstep⟩
  | readyRead n =>
    rcases h.readyRead hpb hlinked hprompt hstep with h' | ⟨t', ht', h'⟩
    · exact .inl h'
    · exact .inr ⟨.deliver, t', ht', h'⟩
  | accept k =>
    simp only [Option.bind_eq_bind, Option.bind_eq_some_iff, Option.some_inj] at hstep
    obtain ⟨l, hl, r, hr, rfl⟩ := hstep
    exact .inl (h.accept hl hr)
  | peer k e =>
    simp only [Option.bind_eq_bind, Option.bind_eq_some_iff, Option.some_inj] at hstep
    obtain ⟨l, hl, r, hr, rfl⟩ := hstep
    exact h.peer hP hpb hl (hprompt l hl) hr
  | call k i =>
    simp only [Option.bind_eq_bind, Option.bind_eq_some_iff] at hstep
    obtain ⟨l, hl, c, hc, hstep⟩ := hstep
    split_ifs at hstep with hwaiting
    cases hstep
    exact .inr ⟨_, h.call hl hc hwaiting⟩
  | resume k i =>
    simp only [Option.bind_eq_bind, Option.bind_eq_some_iff, Option.some_inj] at hstep
    obtain ⟨l, hl, c, hc, n, hn, result, hresult, r, hr, rfl⟩ := hstep
    exact .inr ⟨_, h.resume hP hpb hl hc hn hresult hr⟩
  | database e =>
    obtain ⟨d, hd, rfl⟩ := Option.map_eq_some_iff.mp hstep
    refine .inr ⟨.database e, { t with database := d }, ?_,
      ⟨h.client, rfl, h.running, h.carries, h.socket⟩⟩
    simp only [System.step, h.database, hd, Option.map_some]

/-- A run of prompt steps ends where a run of the system does. -/
theorem exists_refines (hP : 2 ^ 31 + 8 ≤ P.memory) (hpb : P.pb.Generated) {es : List Event}
    (hes : EachStep (step P qt) (Prompt P qt) (initial : ByteSystem hashPassword) es)
    (hrun : run (step P qt) initial es = some s) :
    ∃ t : System hashPassword, Reachable (System.step qt) .initial t ∧ s.Refines P t := by
  have hfollows : ∀ (s : ByteSystem hashPassword) (e : Event) (s' : ByteSystem hashPassword)
      (t : System hashPassword), t.Linked ∧ s.Refines P t → s.step P qt e = some s' →
      s.Prompt P qt e → ∃ fs t', run (System.step qt) t fs = some t' ∧ t'.Linked ∧
        s'.Refines P t' := by
    rintro s e s' t ⟨hlinked, h⟩ hstep hprompt
    rcases follows hP hpb h hlinked hprompt hstep with h' | ⟨f, t', ht', h'⟩
    · exact ⟨[], t, rfl, hlinked, h'⟩
    · exact ⟨[f], t', run_cons_of_step ht' [], (System.step_linked hlinked ht').1, h'⟩
  obtain ⟨fs, t, hfs, -, h⟩ :=
    exists_run_of_simulates hfollows ⟨System.initial_linked, initial_refines⟩ hes hrun
  exact ⟨t, ⟨fs, hfs⟩, h⟩

/-- **Refinement.** No run of prompt steps ends the server, and every such run does what a run of
the system does. -/
theorem refines (hP : 2 ^ 31 + 8 ≤ P.memory) (hpb : P.pb.Generated) {es : List Event}
    (hes : EachStep (step P qt) (Prompt P qt) (initial : ByteSystem hashPassword) es)
    (hrun : run (step P qt) initial es = some s) :
    s.terminated = false ∧ ∃ t : System hashPassword, Reachable (System.step qt) .initial t ∧
      t.client = s.client ∧ t.database = s.database ∧
        List.Forall₂ (Link.Serves P) s.transport.links t.sessions := by
  obtain ⟨t, ht, h⟩ := exists_refines hP hpb hes hrun
  exact ⟨h.running, t, ht, h.client, h.database, h.carries.links⟩

/-- A run in which the client loads its chats, and the answer arrives in three pieces. -/
def chatsAsked : List Event :=
  [.client .connected, .accept 0, .client .ret, .client (.call .loadChats), .peer 0 (.readDone 0),
    .peer 0 (.readDone 0), .peer 0 (.run 0 StorageCall.failure),
    .peer 0 (.run 0 StorageCall.failure), .peer 0 (.run 0 StorageCall.failure), .readyRead 5,
    .readyRead 5, .readyRead 1]

theorem refines_chatsAsked :
    ∃ s : ByteSystem fun _ => [], run (step .proto3 .default) initial chatsAsked = some s ∧
      s.client.log = [.opened, .emitted none (.showMessage "Connected!"), .written 0 .chatsRequest,
        .received, .answered 0 .msgNotSet, .emitted (some 0) .loadedChats] ∧
      s.terminated = false ∧ ∃ t, Reachable (System.step .default) .initial t ∧
        t.client = s.client ∧ t.database = s.database ∧
          List.Forall₂ (Link.Serves .proto3) s.transport.links t.sessions := by
  have hrun : ((run (step .proto3 .default) (initial : ByteSystem fun _ => []) chatsAsked).map
      fun s => s.client.log) = some [.opened, .emitted none (.showMessage "Connected!"),
        .written 0 .chatsRequest, .received, .answered 0 .msgNotSet,
        .emitted (some 0) .loadedChats] := by
    decide +kernel
  obtain ⟨s, hs, hlog⟩ := Option.map_eq_some_iff.mp hrun
  exact ⟨s, hs, hlog, refines Platform.proto3_memory proto3_generated
    (by decide +kernel) hs⟩

/-! ### What the user is told -/

open Client

/-- **The truth, byte by byte.** In a run of prompt steps, a response that is given to a callback is
the kind of message that its request asks for, and when the reaction to a request reports success,
a transaction that the request asks for has been committed. -/
theorem told_of_run (hP : 2 ^ 31 + 8 ≤ P.memory) (hpb : P.pb.Generated) {es : List Event}
    (hes : EachStep (step P qt) (Prompt P qt) (initial : ByteSystem hashPassword) es)
    (hrun : run (step P qt) initial es = some s) :
    (∀ before id r, before ++ [.answered id r] <+: s.client.log → ∃ mesg,
      (exchange before).owed = [(id, mesg)] ∧
      (r = .msgNotSet ↔ mesg.Guarded ∧ logged before = false) ∧
      (r ≠ .msgNotSet → mesg.Expects r)) ∧
    ∀ id signal, .emitted (some id) signal ∈ s.client.log → signal.reported = some true →
      ∃ mesg op rows t, .written id mesg ∈ s.client.log ∧ mesg.Changes ∧ mesg.Asks op ∧
        s.database.committedBy t = [⟨op, rows⟩] := by
  obtain ⟨t, ht, h⟩ := exists_refines hP hpb hes hrun
  rw [← h.client, ← h.database]
  refine ⟨fun before id r hlog => ?_, fun id signal hmem hsignal => ?_⟩
  · obtain ⟨mesg, howed, hsuits⟩ := (System.reachable_answering ht).suited before _ hlog
    exact ⟨mesg, howed, hsuits.msgNotSet_iff, hsuits.expects⟩
  · obtain ⟨-, htruthful⟩ := System.reachable_truthful ht
    obtain ⟨mesg, called, hwritten, hchanges, hcalled, hsucceeded⟩ :=
      (htruthful id signal hmem).reported true hsignal
    cases called with
    | none => cases hsucceeded
    | some r =>
      obtain ⟨hasks, n, -, hreturned⟩ := hcalled
      obtain ⟨rows, hcommitted⟩ :=
        Database.exists_commit hreturned (hchanges.decides hasks) hsucceeded
      exact ⟨mesg, r.1, rows, n, hwritten, hchanges, hasks, hcommitted⟩

/-- A registration, from the button to the reaction. -/
def registeredBytewise : List Event :=
  [.client .connected, .accept 0, .client .ret, .client (.call (.signup "u" "e" "p")),
    .peer 0 (.readDone 0), .peer 0 (.readDone 0), .peer 0 (.run 0 StorageCall.failure), .call 0 0,
    .database (.act 0 (.proceed .stored)), .database (.act 0 (.proceed .stored)),
    .database (.act 0 (.proceed .stored)), .resume 0 0, .peer 0 (.run 0 StorageCall.failure),
    .readyRead 12, .readyRead 1]

theorem told_registeredBytewise : ∃ s : ByteSystem fun _ => [],
    run (step .proto3 .default) initial registeredBytewise = some s ∧
      .emitted (some 0) (.registered true) ∈ s.client.log ∧ ∃ mesg op rows t,
        .written 0 mesg ∈ s.client.log ∧ mesg.Asks op ∧
          s.database.committedBy t = [⟨op, rows⟩] := by
  have hrun : (run (step .proto3 .default) (initial : ByteSystem fun _ => [])
      registeredBytewise).map (fun s => decide (.emitted (some 0) (.registered true) ∈
        s.client.log)) = some true := by
    decide +kernel
  obtain ⟨s, hs, hmem⟩ := Option.map_eq_some_iff.mp hrun
  have hmem := of_decide_eq_true hmem
  obtain ⟨-, htold⟩ :=
    told_of_run Platform.proto3_memory proto3_generated (by decide +kernel) hs
  obtain ⟨mesg, op, rows, t, hwritten, -, hasks, hcommitted⟩ := htold 0 _ hmem rfl
  exact ⟨s, hs, hmem, mesg, op, rows, t, hwritten, hasks, hcommitted⟩

end ByteSystem

end Elegram
