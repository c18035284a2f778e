import Elegram.Server.Sequential

/-!
# Chats are conversations of two people

The schema has no key on `ClientToChat`, so the shape of a chat rests on what `create_chat` checks
and inserts. It does not compare the two users. A user who is in no chat yet has no common chat
with himself, and the insertion for his own identifier goes through. This is the only way in which
the shape is lost: `always_chatShape_iff`.
-/

namespace Elegram

open ReadCommitted Transition

variable {hashPassword : String → List UInt8}

namespace Tables

variable {t : Tables} {seq : Sequences}

/-- The rows of `ClientToChat` of a chat. -/
def membersOf (t : Tables) (chat : PgInt) : List ClientToChatRow :=
  t.clientToChat.filter fun row => row.chatId = chat

/-- A chat of exactly two different clients, each of whom sees the name of the other. -/
def TwoPeople (t : Tables) (chat : PgInt) : Prop :=
  ∃ a ∈ t.client, ∃ b ∈ t.client, a.id ≠ b.id ∧ t.membersOf chat =
    [⟨a.id, chat, "Chat with " ++ b.name⟩, ⟨b.id, chat, "Chat with " ++ a.name⟩]

theorem TwoPeople.mono {t' : Tables} {chat : PgInt} (h : t.TwoPeople chat)
    (hclient : t.client ⊆ t'.client) (hmembers : t'.membersOf chat = t.membersOf chat) :
    t'.TwoPeople chat := by
  obtain ⟨a, ha, b, hb, hne, heq⟩ := h
  exact ⟨a, hclient ha, b, hclient hb, hne, hmembers.trans heq⟩

/-- There are no rows for a chat that has not been created. -/
theorem WellFormed.membersOf_eq_nil (h : t.WellFormed hashPassword seq) {chat : PgInt}
    (hchat : chat.val = seq.chat) : t.membersOf chat = [] := by
  refine List.filter_eq_nil_iff.mpr fun row hrow hid => ?_
  have hlt := (h.chats _ (h.memberships row hrow).1).2
  rw [of_decide_eq_true hid, hchat] at hlt
  exact Nat.lt_irrefl _ hlt

/-- Creating a chat does not touch the others. -/
theorem membersOf_add_chatRows {a b chat c : PgInt} {aName bName : String} (hne : c ≠ chat) :
    (t + chatRows a b chat aName bName).membersOf c = t.membersOf c := by
  have hne' : ¬ chat = c := fun h => hne h.symm
  simp [membersOf, chatRows, hne']

theorem WellFormed.membersOf_new (h : t.WellFormed hashPassword seq) {a b chat : PgInt}
    {aName bName : String} (hchat : chat.val = seq.chat) :
    (t + chatRows a b chat aName bName).membersOf chat =
      [⟨a, chat, "Chat with " ++ bName⟩, ⟨b, chat, "Chat with " ++ aName⟩] := by
  have hold : t.clientToChat.filter (fun row => row.chatId = chat) = [] := h.membersOf_eq_nil hchat
  simp [membersOf, chatRows, hold]

/-- A user without chats has no common chat, not even with himself. -/
theorem commonChats_self {a : PgInt} : t.commonChats a a = [] ↔ t.memberships a = [] := by
  refine ⟨fun h => ?_, fun h => by simp [commonChats, h]⟩
  cases hm : t.memberships a with
  | nil => rfl
  | cons row rows =>
    rw [commonChats, hm] at h
    simp at h

/-- A client is in a chat of two different people at most once. -/
theorem TwoPeople.memberships_nodup (h : ∀ chat ∈ t.chat, t.TwoPeople chat)
    (hwf : t.WellFormed hashPassword seq) (client : PgInt) :
    ((t.memberships client).map ClientToChatRow.chatId).Nodup := by
  refine List.nodup_iff_count_le_one.mpr fun chat => ?_
  rw [List.count_eq_countP, List.countP_map, List.countP_eq_length_filter]
  by_cases hchat : chat ∈ t.chat
  · -- of the two members of the chat, one at most is this client
    obtain ⟨a, -, b, -, hne, heq⟩ := h chat hchat
    have hswap : ((t.memberships client).filter ((· == chat) ∘ ClientToChatRow.chatId)) =
        (t.membersOf chat).filter fun row => row.clientId = client := by
      rw [memberships, membersOf, List.filter_filter, List.filter_filter]
      exact List.filter_congr fun row _ => by simp [Bool.and_comm, beq_eq_decide]
    rw [hswap, heq]
    by_cases ha : a.id = client <;> by_cases hb : b.id = client <;> simp [ha, hb]
    exact hne (ha.trans hb.symm)
  · rw [List.length_eq_zero_iff.mpr (List.filter_eq_nil_iff.mpr fun row hrow hid => hchat ?_)]
    · exact Nat.zero_le _
    · rw [← show row.chatId = chat by simpa using hid]
      exact (hwf.memberships row (List.mem_filter.mp hrow).1).1

end Tables

/-! ### What a chat list shows -/

/-- The identifier in a message of which the first `k` fields have been set. -/
theorem chatId_partialMessage (row : PgInt × String) (k : ℕ) :
    (partialMessage { chatId := 0, title := "" } (chatSetters row) k).chatId =
      if k = 0 then 0 else row.1.toUInt64 := by
  match k with
  | 0 => rfl
  | 1 => rfl
  | k + 2 => simp [partialMessage, chatSetters]

theorem PgInt.toUInt64_ne_zero {i : PgInt} (h : 0 < i.val) : i.toUInt64 ≠ 0 := by
  intro h0
  have heq : i = ⟨0, by decide⟩ := PgInt.toUInt64_injective h0
  rw [heq] at h
  exact Nat.lt_irrefl _ h

/-- A response to `get_chats` shows the identifiers of its rows, and of a message that was not
finished perhaps the default. -/
theorem chatIds_nodup {rows : List (PgInt × String)} {response : List Chat}
    (h : Filled { chatId := 0, title := "" } chatSetters rows response)
    (hpos : ∀ row ∈ rows, 0 < row.1.val) (hnodup : (rows.map Prod.fst).Nodup) :
    (response.map Chat.chatId).Nodup := by
  have hfull : ∀ rows : List (PgInt × String),
      (rows.map fun row => fullMessage { chatId := 0, title := "" } (chatSetters row)).map
        Chat.chatId = (rows.map Prod.fst).map PgInt.toUInt64 := by
    intro rows
    simp [fullMessage, chatSetters]
  rcases h with rfl | ⟨done, row, rest, k, rfl, rfl⟩
  · rw [hfull]
    exact hnodup.map PgInt.toUInt64_injective
  · rw [List.map_append, List.nodup_append] at hnodup
    obtain ⟨hdone, -, hne⟩ := hnodup
    rw [List.map_append, hfull, List.map_singleton, chatId_partialMessage]
    refine List.nodup_append.mpr ⟨hdone.map PgInt.toUInt64_injective, List.nodup_singleton _, ?_⟩
    intro id hid id' hid' heq
    obtain ⟨i, hi, rfl⟩ := List.mem_map.mp hid
    rw [List.mem_singleton.mp hid'] at heq
    split_ifs at heq
    · obtain ⟨row', hrow', rfl⟩ := List.mem_map.mp hi
      exact PgInt.toUInt64_ne_zero (hpos row' (List.mem_append_left _ hrow')) heq
    · exact hne i hi row.1 (by simp) (PgInt.toUInt64_injective heq)

namespace SequentialServer

/-- **The shape of chats.** Every chat is a conversation of two different people, and whatever
comes of a call of `get_chats`, its result lists no chat twice. -/
structure ChatShape (hashPassword : String → List UInt8) (s : SequentialServer) : Prop where
  twoPeople : ∀ chat ∈ s.tables.chat, s.tables.TwoPeople chat
  listedOnce : ∀ userId choices,
    ((storageProg hashPassword (.getChats userId)).Ensures fun chats _ =>
      (chats.map Chat.chatId).Nodup) ⟨s.tables, s.sequences, some 0, choices⟩

/-- No user who is in no chat asks for a chat with himself and gets it: that is, with a number
left for the chat and a database that fails none of the nine actions of the call. -/
def NoSelfChat (s : SequentialServer) : Event → Prop
  | .request i (.createChatRequest mesg) choices =>
    ∀ user a, s.sessions[i]? = some (some user) → mesg.friendId = user.userId →
      PgInt.ofUInt64? user.userId = some a → s.tables.memberships a = [] →
      s.sequences.chat < 2 ^ 31 → ¬ Calm 9 choices
  | _ => True

variable {s s' : SequentialServer} {e : Event}

/-- The second part of the shape follows from the first. -/
theorem chatShape_of_twoPeople (hwf : s.WellFormed hashPassword)
    (h : ∀ chat ∈ s.tables.chat, s.tables.TwoPeople chat) : s.ChatShape hashPassword := by
  refine ⟨h, fun userId choices => ?_⟩
  refine Prog.Ensures.mono (storageProg_ensures hashPassword s.tables s.sequences choices
    (.getChats userId)) fun chats c hpost => ?_
  obtain ⟨-, rfl | ⟨stored, rows, hstored, hperm, hfilled⟩, -⟩ := hpost
  · exact List.nodup_nil
  · obtain ⟨client, -, rfl⟩ := Option.map_eq_some_iff.mp hstored
    have hids : (s.tables.chatsOf client).map Prod.fst =
        (s.tables.memberships client).map ClientToChatRow.chatId := by
      simp [Tables.chatsOf]
    refine chatIds_nodup hfilled (fun row hrow => ?_) ((hperm.map Prod.fst).nodup_iff.mpr ?_)
    · obtain ⟨m, hm, rfl⟩ := List.mem_map.mp (hperm.subset hrow)
      exact (hwf.tables.chats _ (hwf.tables.memberships m (List.mem_filter.mp hm).1).1).1
    · rw [hids]
      exact Tables.TwoPeople.memberships_nodup h hwf.tables client

/-- The two people of the new chat. -/
theorem twoPeople_of_change {st st' : Option ClientState} {choices : ℕ → Choice}
    {request : Request} {t t' : Tables} {seq seq' : Sequences}
    (hwf : t.WellFormed hashPassword seq) (hst : ∀ user, st = some user → Profile t user)
    (hself : ∀ mesg user a, request = .createChatRequest mesg → st = some user →
      mesg.friendId = user.userId → PgInt.ofUInt64? user.userId = some a →
      t.memberships a = [] → seq.chat < 2 ^ 31 → ¬ Calm 9 choices)
    (hchange : Change hashPassword t seq st choices request st' t' seq')
    (h : ∀ chat ∈ t.chat, t.TwoPeople chat) : ∀ chat ∈ t'.chat, t'.TwoPeople chat := by
  cases hchange with
  | @createdChat mesg user a b chat row huser ha hb hcalm hcan hrow hid hchat =>
    intro c hc
    rcases List.mem_append.mp hc with hold | hnew
    · have hne : c ≠ chat := by
        rintro rfl
        exact Nat.lt_irrefl _ (hchat ▸ (hwf.chats c hold).2)
      exact (h c hold).mono (List.subset_append_left _ _) (Tables.membersOf_add_chatRows hne)
    · rw [List.mem_singleton.mp hnew]
      obtain ⟨owner, howner, rfl⟩ := hst user huser
      rw [PgInt.ofUInt64?_toUInt64, Option.some_inj] at ha
      subst ha hid
      refine ⟨owner, List.mem_append_left _ howner, row, List.mem_append_left _ hrow, ?_,
        hwf.membersOf_new hchat⟩
      intro heq
      refine hself mesg _ owner.id rfl huser ?_ (PgInt.ofUInt64?_toUInt64 _) ?_ ?_ hcalm
      · rw [← PgInt.toUInt64_of_eq_some hb, heq]
      · rw [← Tables.commonChats_self]
        have hcommon := hcan.1
        rwa [← heq] at hcommon
      · rw [← hchat]
        exact chat.isLt
  | _ =>
    exact fun c hc => (h c (by simpa using hc)).mono (by simp) (by simp [Tables.membersOf])

/-- A step that creates no chat of one person keeps the shape. -/
theorem chatShape_of_step (hwf : s.WellFormed hashPassword) (h : s.ChatShape hashPassword)
    (hstep : s.step hashPassword e = some s') (he : NoSelfChat s e) :
    s'.ChatShape hashPassword := by
  refine chatShape_of_twoPeople (hwf.of_step hstep) ?_
  cases e with
  | connect =>
    cases hstep
    exact h.twoPeople
  | request i request choices =>
    obtain ⟨st, served, hst, hserved, rfl⟩ := step_request hstep
    refine twoPeople_of_change hwf.tables (fun user huser => ?_) (fun mesg user a hreq huser => ?_)
      (serve_change hserved) h.twoPeople
    · exact hwf.sessions user (List.mem_of_getElem? (hst.trans (congrArg some huser)))
    · subst hreq
      exact he user a (hst.trans (congrArg some huser))

/-- A chat with oneself has one person. -/
theorem not_twoPeople_chatRows {t : Tables} {seq : Sequences}
    (hwf : t.WellFormed hashPassword seq) {a chat : PgInt} {aName bName : String}
    (hchat : chat.val = seq.chat) : ¬ (t + chatRows a a chat aName bName).TwoPeople chat := by
  rintro ⟨x, -, y, -, hne, heq⟩
  rw [hwf.membersOf_new hchat] at heq
  simp only [List.cons.injEq, ClientToChatRow.mk.injEq] at heq
  exact hne (heq.1.1.symm.trans heq.2.1.1)

/-- A step that creates a chat of one person does not. -/
theorem not_chatShape_of_step (hwf : s.WellFormed hashPassword)
    (hstep : s.step hashPassword e = some s') (he : ¬ NoSelfChat s e) :
    ¬ s'.ChatShape hashPassword := by
  cases e with
  | connect => exact absurd trivial he
  | request i request choices =>
    cases request with
    | createChatRequest mesg =>
      simp only [NoSelfChat, not_forall, not_not] at he
      obtain ⟨user, a, hst, hself, ha, hnone, hlt, hcalm⟩ := he
      obtain ⟨st, served, hst', hserved, rfl⟩ := step_request hstep
      cases hst.symm.trans hst'
      have hcall : guardedCall user (.createChatRequest mesg) =
          some ⟨.createChat user.userId user.userName mesg.friendId, statusResponse⟩ := rfl
      rw [serve_guarded hcall] at hserved
      cases hserved
      have hreg : s.tables.isRegistered a := by
        obtain ⟨row, hrow, rfl⟩ := hwf.sessions user (List.mem_of_getElem? hst)
        rw [PgInt.ofUInt64?_toUInt64, Option.some_inj] at ha
        exact ha ▸ Tables.isRegistered_of_mem hrow
      have hpost := storageProg_ensures hashPassword s.tables s.sequences choices
        (.createChat user.userId user.userName mesg.friendId)
      rcases hpost with
        ⟨-, -, hno⟩ | ⟨-, -, -, a', b, chat, row, ha', hb, -, -, -, hchat, htables, -⟩
      · exact absurd
          ⟨hcalm, hlt, a, a, ha, hself ▸ ha, Tables.commonChats_self.mpr hnone, hreg, hreg⟩ hno
      · rw [hself] at hb
        cases ha'.symm.trans hb
        intro hshape
        have htwo := hshape.twoPeople chat
        rw [afterCall, htables] at htwo
        exact not_twoPeople_chatRows hwf.tables hchat (htwo (by simp [chatRows]))
    | _ => exact absurd trivial he

/-- **Conversations of two.** -/
theorem always_chatShape_iff (hashPassword : String → List UInt8) (es : List Event) :
    Always (step hashPassword) (ChatShape hashPassword) initial es ↔
      EachStep (step hashPassword) NoSelfChat initial es := by
  refine always_iff_eachStep
    (I := fun s => WellFormed hashPassword s ∧ ChatShape hashPassword s)
    (fun s h => h.2) (fun s e s' h hstep he => ?_) (fun s e s' h hstep he => ?_) ?_
  · exact ⟨h.1.of_step hstep, chatShape_of_step h.1 h.2 hstep he⟩
  · exact not_chatShape_of_step h.1 hstep he
  · exact ⟨initial_wellFormed, chatShape_of_twoPeople initial_wellFormed (by simp [initial])⟩

/-- Somebody registers, logs in and asks for a chat with the first client, which is himself. -/
def chatWithOneself : List Event :=
  [.connect, .request 0 (.registerRequest ⟨"", "", ""⟩) fun _ => .proceed .stored,
    .request 0 (.loginRequest ⟨"", ""⟩) fun _ => .proceed .stored,
    .request 0 (.createChatRequest ⟨1⟩) fun _ => .proceed .stored]

/-- Both rows of the new chat are his. -/
theorem not_always_chatShape_chatWithOneself :
    (run (step fun _ => []) initial chatWithOneself).map (fun s =>
      (s.tables.chat, s.tables.clientToChat.map fun row => (row.clientId, row.chatId))) =
        some ([1], [(1, 1), (1, 1)]) ∧
    ¬ Always (step fun _ => []) (ChatShape fun _ => []) initial chatWithOneself := by
  have hrun : (run (step fun _ => []) initial chatWithOneself).map (fun s =>
      (s.tables.chat, s.tables.clientToChat.map fun row => (row.clientId, row.chatId))) =
        some ([1], [(1, 1), (1, 1)]) := by
    decide
  refine ⟨hrun, fun h => ?_⟩
  obtain ⟨s, hs, hrows⟩ := Option.map_eq_some_iff.mp hrun
  simp only [Prod.mk.injEq] at hrows
  have hshape := always_iff_prefixes.mp h chatWithOneself [] (List.append_nil _).symm s hs
  obtain ⟨a, -, b, -, hne, heq⟩ := hshape.twoPeople 1 (by rw [hrows.1]; simp)
  -- all rows of the table are those of the first client
  have hone : ∀ row ∈ s.tables.membersOf 1, row.clientId = 1 := by
    intro row hrow
    have hmem := List.mem_map_of_mem (f := fun row : ClientToChatRow => (row.clientId, row.chatId))
      (List.mem_filter.mp hrow).1
    rw [hrows.2] at hmem
    simp only [List.mem_cons, Prod.mk.injEq, List.not_mem_nil, or_false, or_self] at hmem
    exact hmem.1
  rw [heq] at hone
  have ha : a.id = 1 := hone _ (List.mem_cons_self ..)
  have hb : b.id = 1 := hone _ (List.mem_cons_of_mem _ (List.mem_cons_self ..))
  exact hne (ha.trans hb.symm)

end SequentialServer

end Elegram
