import Elegram.Client.Conversation

/-!
# The messages of a chat

`LoadMessagesJob` does not know the chat it has asked for: `MessagesList::setItems` files the answer
under the chat that is the current one when it arrives. MessagesWindow.qml sets the current chat
only when the facade is open, and asks for its messages at once, so that the facade is locked until
the answer is there. `Cached` is the invariant: every chat holds what the last answer to a request
for it contained, and while such a request is owed an answer, its chat is the current one.
-/

namespace Elegram

open Transition

namespace Client

variable {qt : Qt}

/-- The items that an answer holds for a chat, if it answers a request for its messages. -/
def messagesOf (chatId : UInt64) : Request × Response → Option (List MessageItem)
  | (.messagesRequest mesg, .messagesResponse messages) =>
    if mesg.chatId = chatId then some (messages.map Lists.messageItem) else none
  | _ => none

/-- The items of the last answer with messages of the chat. -/
def loaded (chatId : UInt64) (answers : List (Request × Response)) : Option (List MessageItem) :=
  (answers.filterMap (messagesOf chatId)).getLast?

/-- The current chat is only set by MessagesWindow.qml, together with a request for its messages. -/
def Driven (c : Client) (e : Event) : Prop :=
  c.Answers e ∧ ∀ chatId, e ≠ .setCurrentChatId chatId ∧ e ≠ .call (.loadMessages chatId)

theorem loaded_concat (chatId : UInt64) (answers : List (Request × Response))
    (a : Request × Response) :
    loaded chatId (answers ++ [a]) = (messagesOf chatId a).or (loaded chatId answers) := by
  rw [loaded, List.filterMap_append, List.getLast?_append]
  cases h : messagesOf chatId a with
  | none => simp [h, loaded]
  | some items => simp [h]

/-- Only `LoadMessagesJob` asks for messages. -/
theorem MayMake.chatId {job : Job} {mesg : MessagesRequest}
    (h : MayMake job (.messagesRequest mesg)) : job = .loadMessages := by
  rcases h with ⟨op, hop⟩ | ⟨-, hmesg⟩
  · cases op <;> cases hop
    rfl
  · cases hmesg

theorem MayMake.messagesRequest {mesg : Request} (h : MayMake .loadMessages mesg) :
    ∃ chatId, mesg = .messagesRequest { chatId := chatId } := by
  rcases h with ⟨op, hop⟩ | ⟨hjob, -⟩
  · cases op <;> cases hop
    exact ⟨_, rfl⟩
  · cases hjob

theorem store_mesagesList_of_ne {job : Job} (h : job ≠ .loadMessages) (r : Response) (l : Lists) :
    (job.store r l).mesagesList = l.mesagesList := by
  cases job <;> cases r <;> first | rfl | exact absurd rfl h

theorem shown_store {l : Lists} (h : l.mesagesList.Shown) (job : Job) (r : Response) :
    (job.store r l).mesagesList.Shown := by
  by_cases hjob : job = .loadMessages
  · subst hjob
    cases r with
    | messagesResponse messages => exact MessagesList.Shown.setItems ..
    | _ => exact h
  · rwa [store_mesagesList_of_ne hjob]

/-- A response is filed under the chat that was asked for. -/
theorem mapToItems_store {job : Job} {mesg : Request} {l : Lists} (hmakes : MayMake job mesg)
    (hcurrent : ∀ m, mesg = .messagesRequest m → m.chatId = l.mesagesList.currentChatId)
    (r : Response) (chatId : UInt64) :
    (job.store r l).mesagesList.mapToItems chatId =
      (messagesOf chatId (mesg, r)).or (l.mesagesList.mapToItems chatId) := by
  by_cases hjob : job = .loadMessages
  · subst hjob
    obtain ⟨asked, rfl⟩ := hmakes.messagesRequest
    have hasked : asked = l.mesagesList.currentChatId := hcurrent _ rfl
    cases r with
    | messagesResponse messages =>
      rw [Job.store, Lists.setMessages, MessagesList.mapToItems_setItems, ← hasked, messagesOf]
      by_cases hchat : asked = chatId
      · rw [if_pos hchat, hchat, Function.update_self, Option.some_or]
      · rw [if_neg hchat, Function.update_of_ne (Ne.symm hchat), Option.none_or]
    | _ => rfl
  · have hnone : messagesOf chatId (mesg, r) = none := by
      cases mesg with
      | messagesRequest m => exact absurd hmakes.chatId hjob
      | _ => rfl
    rw [store_mesagesList_of_ne hjob, hnone, Option.none_or]

/-- Every chat holds the last answer for it, the messages of the current chat are shown, and a chat
whose messages are owed is the current one. -/
structure Cached (c : Client) : Prop where
  filed : ∀ chatId, c.lists.mesagesList.mapToItems chatId =
    loaded chatId (exchange c.log).answers
  shown : c.lists.mesagesList.Shown
  current : ∀ id m, (id, .messagesRequest m) ∈ (exchange c.log).owed →
    m.chatId = c.lists.mesagesList.currentChatId

theorem Turn.cached {c c' : Client} {e : Event} (h : Turn c e c') (hc : c.Cached)
    (he : ∀ chatId, e ≠ .call (.loadMessages chatId)) : c'.Cached := by
  cases h with
  | idle hlists hanswers howed =>
    refine ⟨fun chatId => ?_, by rw [hlists]; exact hc.shown, fun id m hmem => ?_⟩
    · rw [hlists, hanswers]
      exact hc.filed chatId
    · rw [hlists]
      rcases howed with hsame | hnone
      · rw [hsame] at hmem
        exact hc.current id m hmem
      · rw [hnone] at hmem
        exact absurd hmem List.not_mem_nil
  | @asked op mesg job hcalls hop hlists hanswers howed =>
    refine ⟨fun chatId => ?_, by rw [hlists]; exact hc.shown, fun id m hmem => ?_⟩
    · rw [hlists, hanswers]
      exact hc.filed chatId
    · rw [howed, List.mem_singleton] at hmem
      obtain ⟨-, rfl⟩ := Prod.mk.inj hmem
      rw [hlists]
      -- the operation that asks for messages has been called by the handler
      rcases hcalls with rfl | ⟨chatId, rfl, rfl, hcurrent⟩
      · cases op <;> cases hop
        exact absurd rfl (he _)
      · cases hop
        exact hcurrent.symm
  | @answered r job id mesg howed hmakes hlists hanswers hnext =>
    have hcurrent : ∀ m, mesg = .messagesRequest m →
        m.chatId = c.lists.mesagesList.currentChatId := by
      rintro m rfl
      refine hc.current id m ?_
      rw [howed]
      exact List.mem_singleton_self _
    refine ⟨fun chatId => ?_, by rw [hlists]; exact shown_store hc.shown job r,
      fun id m hmem => ?_⟩
    · rw [hlists, hanswers, loaded_concat, mapToItems_store hmakes hcurrent, hc.filed chatId]
    · rcases hnext with hnone | hchats
      · rw [hnone] at hmem
        exact absurd hmem List.not_mem_nil
      · rw [hchats, List.mem_singleton] at hmem
        cases (Prod.mk.inj hmem).2

theorem step_cached (c : Client) (e : Event) (c' : Client) (hc : c.Converses ∧ c.Cached)
    (h : c.step qt e = some c') (he : c.Driven e) : c'.Converses ∧ c'.Cached := by
  obtain ⟨hconverses, hcached⟩ := hc
  refine ⟨step_converses c e c' hconverses h he.1, ?_⟩
  obtain ⟨hsuspended, hturn⟩ := hconverses
  rcases step_moves hsuspended h with hm | ⟨chatId, hset | ⟨-, havailible⟩, hm⟩
  · exact (hm.turn hturn he.1).cached hcached fun chatId => (he.2 chatId).2
  · exact absurd hset (he.2 chatId).1
  · have hturn' : (c.setCurrentChatId chatId).InTurn := ⟨hturn.orderly, hturn.free, hturn.locked⟩
    refine (hm.turn hturn' he.1).cached ⟨fun chatId' => ?_, ?_, fun id m hmem => ?_⟩
      fun chatId => (he.2 chatId).2
    · have hmap := MessagesList.mapToItems_setCurrentChatId chatId c.lists.mesagesList
      exact (congrFun hmap chatId').trans (hcached.filed chatId')
    · exact hcached.shown.setCurrentChatId chatId
    · -- an open facade owes nothing
      have howed : (exchange (c.setCurrentChatId chatId).log).owed = [] := hturn.free havailible
      rw [howed] at hmem
      exact absurd hmem List.not_mem_nil

theorem initial_cached : initial.Cached :=
  ⟨fun _ => rfl, MessagesList.shown_initial, fun _ _ hmem => absurd hmem List.not_mem_nil⟩

/-- **The cache.** With a server that answers each request once, and with MessagesWindow.qml as the
only user of the list, a chat has an entry exactly if a request for its messages has been answered
with messages; the entry holds the items of the last such answer, and the items of the entry of the
current chat are shown. -/
theorem cached_of_run {es : List Event} {c : Client}
    (hes : EachStep (step qt) Driven initial es) (hrun : run (step qt) initial es = some c) :
    (∀ chatId, c.lists.mesagesList.mapToItems chatId =
      loaded chatId (exchange c.log).answers) ∧
    c.lists.mesagesList.items =
      loaded c.lists.mesagesList.currentChatId (exchange c.log).answers ∧
    c.lists.mesagesList.size =
      ((loaded c.lists.mesagesList.currentChatId (exchange c.log).answers).map
        List.length).getD 0 := by
  obtain ⟨-, hcached⟩ := invariant_of_eachStep step_cached ⟨initial_converses, initial_cached⟩ hes
    hrun
  have hitems := hcached.shown.trans (hcached.filed _)
  exact ⟨hcached.filed, hitems, by rw [MessagesList.size, hitems]⟩

/-- The messages of chat 3 are loaded, and then those of chat 4, but the connection is lost. -/
def messagesLoaded : List Event :=
  [.connected, .ret, .showMessages 3,
    .frame (some (.response (.messagesResponse [{ senderId := 1, text := "m" }]))), .ret,
    .showMessages 4, .lost .remoteHostClosedError]

theorem eachStep_messagesLoaded : EachStep (step Qt.default) Driven initial messagesLoaded := by
  have hfree : ∀ (c : Client) (e : Event), (∀ body, e ≠ .frame body) →
      (∀ chatId, e ≠ .setCurrentChatId chatId ∧ e ≠ .call (.loadMessages chatId)) →
      c.Driven e :=
    fun _ _ he hload => ⟨fun body heq => absurd heq (he body), hload⟩
  rw [messagesLoaded, eachStep_cons rfl, eachStep_cons rfl, eachStep_cons rfl, eachStep_cons rfl,
    eachStep_cons rfl, eachStep_cons rfl, eachStep_cons rfl]
  refine ⟨hfree _ _ nofun fun _ => ⟨nofun, nofun⟩, hfree _ _ nofun fun _ => ⟨nofun, nofun⟩,
    hfree _ _ nofun fun _ => ⟨nofun, nofun⟩, ⟨?_, fun _ => ⟨nofun, nofun⟩⟩,
    hfree _ _ nofun fun _ => ⟨nofun, nofun⟩, hfree _ _ nofun fun _ => ⟨nofun, nofun⟩,
    hfree _ _ nofun fun _ => ⟨nofun, nofun⟩, trivial⟩
  rintro _ ⟨⟩
  exact ⟨⟨_, rfl⟩, by decide⟩

/-- Chat 3 has an entry and chat 4 has none, and nothing is shown. -/
theorem cached_messagesLoaded : ∃ c, run (step Qt.default) initial messagesLoaded = some c ∧
    c.lists.mesagesList.mapToItems 3 = some [{ senderId := 1, text := "m" }] ∧
    c.lists.mesagesList.mapToItems 4 = none ∧ c.lists.mesagesList.items = none := by
  have hrun : (run (step Qt.default) initial messagesLoaded).map
      (fun c => (c.lists.mesagesList.currentChatId, (exchange c.log).answers)) =
      some (4, [(MessageFactory.createLoadMessagesRequest 3,
        .messagesResponse [{ senderId := 1, text := "m" }])]) := by
    decide
  obtain ⟨c, hc, heq⟩ := Option.map_eq_some_iff.mp hrun
  simp only [Prod.mk.injEq] at heq
  obtain ⟨hfiled, hshown, -⟩ := cached_of_run eachStep_messagesLoaded hc
  rw [heq.1, heq.2] at hshown
  have h3 := hfiled 3
  have h4 := hfiled 4
  rw [heq.2] at h3 h4
  exact ⟨c, hc, h3.trans (by decide), h4.trans (by decide), hshown.trans (by decide)⟩

end Client

end Elegram
