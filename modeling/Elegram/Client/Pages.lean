import Elegram.Client.Steps

/-!
# The pages

The handlers of the QML files, as far as they change the stack of pages or the current chat. The
chat that is written to is a property of main.qml, `current_chat`, and the chat that is shown is a
property of `MessagesList`. ChatsWindow.qml sets the former, and then MessagesWindow.qml the latter,
but only if the backend is free. `always_onScreen_iff` says when the two agree.

Handlers that only call an operation of the facade are events of their own, `call`, whichever page
they belong to.
-/

namespace Elegram

open Transition

/-- The QML files of the pages. -/
inductive Page
  | login
  | register
  | settings
  | chats
  | contacts
  | addContact
  | messages
  | profile
  deriving DecidableEq, Repr

/-- The pages with a button for another page, except for the chats in the list of chats. -/
def Page.opens : Page → List Page
  | .login => [.register, .settings]
  | .register => [.settings]
  | .chats => [.contacts, .settings, .profile]
  | .contacts => [.addContact]
  | _ => []

/-- The client with main.qml. The first of the pages is the one on the screen. -/
structure Ui where
  client : Client
  currentChat : UInt64
  pages : List Page

namespace Ui

def initial : Ui where
  client := .initial
  currentChat := 0
  pages := [.login]

inductive Event
  /-- A chat of ChatsWindow.qml is clicked. -/
  | openChat (chatId : UInt64)
  /-- A button pushes a page. -/
  | push (page : Page)
  | back
  /-- The send button of MessagesWindow.qml. -/
  | send (text : String)
  /-- The reload button of MessagesWindow.qml. -/
  | reload
  /-- A handler calls an operation. -/
  | call (op : Operation)
  /-- The C++ code or the socket goes on. -/
  | client (e : Client.Event)

/-- The operations that are not about the current chat. -/
def IsPlain : Operation → Prop
  | .sendMessage .. | .loadMessages .. => False
  | _ => True

/-- The events that do not come from QML. -/
def IsOutside : Client.Event → Prop
  | .call _ | .setCurrentChatId _ | .showMessages _ => False
  | _ => True

instance : DecidablePred IsPlain
  | .sendMessage .. | .loadMessages .. => .isFalse id
  | .signin .. | .signup .. | .addContact .. | .loadChats | .loadContacts | .loadData
  | .updateConnectionSettings .. | .createChat .. => .isTrue trivial

instance : DecidablePred IsOutside
  | .call _ | .setCurrentChatId _ | .showMessages _ => .isFalse id
  | .ret | .connected | .failed _ | .lost _ | .frame _ => .isTrue trivial

variable (qt : Qt)

def showMessages (ui : Ui) : Ui :=
  { ui with client := ui.client.showMessages qt ui.currentChat }

/-- The handlers of a signal: those of main.qml, of LoginWindow.qml, with the page that it pushes,
and of MessagesWindow.qml. -/
def react (ui : Ui) : ClientAction → Ui
  | .emitted _ .disconnected => { ui with pages := [.login] }
  | .emitted _ (.loggedIn true) =>
    if .login ∈ ui.pages then
      { ui with
        client := ui.client.operation qt .loadData
        pages := .chats :: ui.pages }
    else ui
  | .emitted _ (.sendedMessage true) =>
    if .messages ∈ ui.pages then ui.showMessages qt else ui
  | _ => ui

/-- The client moves on, and the handlers of the signals it emits run. -/
def follow (c : Client) (ui : Ui) : Ui :=
  (c.log.drop ui.client.log.length).foldl (react qt) { ui with client := c }

/-- The user only acts when no handler is running. A page is pushed when it is completed, and
`property int` holds the identifiers below `2 ^ 31`. -/
def step (ui : Ui) : Event → Option Ui
  | .openChat chatId =>
    if ui.client.stack = [] ∧ ui.pages.head? = some .chats ∧
        chatId ∈ ui.client.lists.chatsList.items.map ChatItem.id ∧ chatId < 2147483648 then
      let ui := ({ ui with currentChat := chatId } : Ui).showMessages qt
      some { ui with pages := .messages :: ui.pages }
    else none
  | .push page =>
    if ui.client.stack = [] ∧ ∃ top ∈ ui.pages.head?, page ∈ top.opens then
      let c := if page = .contacts then ui.client.operation qt .loadContacts else ui.client
      some { ui with client := c, pages := page :: ui.pages }
    else none
  | .back =>
    if ui.client.stack = [] then
      some { ui with pages := if 1 < ui.pages.length then ui.pages.tail else ui.pages }
    else none
  | .send text =>
    if ui.client.stack = [] ∧ ui.pages.head? = some .messages ∧ text ≠ "" then
      some { ui with client := ui.client.operation qt (.sendMessage ui.currentChat text) }
    else none
  | .reload =>
    if ui.client.stack = [] ∧ ui.pages.head? = some .messages then some (ui.showMessages qt)
    else none
  | .call op => if IsPlain op then some (ui.follow qt (ui.client.operation qt op)) else none
  | .client e => if IsOutside e then (ui.client.step qt e).map fun c => ui.follow qt c else none

/-! ### The chat on the screen -/

/-- The messages on the screen are those of the chat that is written to. -/
def OnScreen (ui : Ui) : Prop :=
  ui.pages.head? = some .messages → ui.client.lists.mesagesList.currentChatId = ui.currentChat

/-- A chat is opened while the backend is free, or it is the one shown last. -/
def OpensFree (ui : Ui) (e : Event) : Prop :=
  ∀ chatId, e = .openChat chatId →
    ui.client.availible = true ∨ ui.client.lists.mesagesList.currentChatId = chatId

/-- As long as there are pages with messages, they show the chat that is written to. -/
def Synchronised (ui : Ui) : Prop :=
  .messages ∈ ui.pages → ui.client.lists.mesagesList.currentChatId = ui.currentChat

variable {qt} {ui ui' : Ui}

theorem Synchronised.onScreen (h : ui.Synchronised) : ui.OnScreen :=
  fun hhead => h (List.mem_of_mem_head? hhead)

theorem initial_synchronised : initial.Synchronised := nofun

/-- What is shown after MessagesWindow.qml has tried to show a chat. -/
theorem currentChatId_showMessages (chatId : UInt64) (c : Client) :
    (c.showMessages qt chatId).lists.mesagesList.currentChatId =
      if c.availible then chatId else c.lists.mesagesList.currentChatId := by
  rw [Client.showMessages]
  split_ifs with havailible
  · rw [Client.lists_operation]
    exact MessagesList.currentChatId_setCurrentChatId ..
  · rfl

theorem Synchronised.showMessages (h : ui.Synchronised) : (ui.showMessages qt).Synchronised := by
  intro hmem
  rw [Ui.showMessages, currentChatId_showMessages]
  split_ifs
  · rfl
  · exact h hmem

/-- Handlers show the current chat, and the pages they push are not pages with messages. -/
theorem Synchronised.react (h : ui.Synchronised) (a : ClientAction) :
    (ui.react qt a).Synchronised := by
  unfold Ui.react
  split
  · exact nofun
  · split_ifs
    · intro hmem
      rw [Client.lists_operation]
      exact h (List.mem_of_ne_of_mem Page.noConfusion hmem)
    · exact h
  · split_ifs
    · exact h.showMessages
    · exact h
  · exact h

theorem Synchronised.follow (h : ui.Synchronised) {c : Client}
    (hc : c.lists.mesagesList.currentChatId = ui.client.lists.mesagesList.currentChatId) :
    (ui.follow qt c).Synchronised := by
  rw [Ui.follow]
  have hmoved : ({ ui with client := c } : Ui).Synchronised := fun hmem => hc.trans (h hmem)
  generalize ({ ui with client := c } : Ui) = ui₁ at hmoved
  induction c.log.drop ui.client.log.length generalizing ui₁ with
  | nil => exact hmoved
  | cons a as ih => exact ih _ (hmoved.react a)

/-- The socket and the server do not change the current chat of the list. -/
theorem currentChatId_step {c c' : Client} {e : Client.Event} (he : IsOutside e)
    (h : c.step qt e = some c') :
    c'.lists.mesagesList.currentChatId = c.lists.mesagesList.currentChatId := by
  rw [Client.lists_step h]
  cases e with
  | call | setCurrentChatId | showMessages => exact he.elim
  | frame body =>
    match body with
    | some (.response r) =>
      rw [Client.listsAfter]
      cases c.callback with
      | none => rfl
      | some callback => exact Job.currentChatId_store ..
    | none | some (.request _) | some .msgNotSet => rfl
  | _ => rfl

theorem step_openChat {chatId : UInt64} (h : ui.step qt (.openChat chatId) = some ui') :
    ui'.pages.head? = some .messages ∧ ui'.currentChat = chatId ∧
      ui'.client.lists.mesagesList.currentChatId =
        if ui.client.availible then chatId else ui.client.lists.mesagesList.currentChatId := by
  rw [step] at h
  split_ifs at h
  cases h
  exact ⟨rfl, rfl, currentChatId_showMessages ..⟩

theorem step_synchronised {e : Event} (h : ui.Synchronised) (hstep : ui.step qt e = some ui')
    (he : ui.OpensFree e) : ui'.Synchronised := by
  cases e with
  | openChat chatId =>
    obtain ⟨-, hchat, hlist⟩ := step_openChat hstep
    intro _
    rw [hchat, hlist]
    split_ifs with havailible
    · rfl
    · exact (he chatId rfl).resolve_left havailible
  | push page =>
    obtain ⟨⟨-, top, -, hopens⟩, heq⟩ := Option.ite_none_right_eq_some.mp hstep
    cases heq
    have hne : Page.messages ≠ page := by
      rintro rfl
      cases top <;> simp [Page.opens] at hopens
    intro hmem
    refine Eq.trans ?_ (h (List.mem_of_ne_of_mem hne hmem))
    dsimp only
    split_ifs
    · rw [Client.lists_operation]
    · rfl
  | back =>
    obtain ⟨-, heq⟩ := Option.ite_none_right_eq_some.mp hstep
    cases heq
    intro hmem
    refine h ?_
    dsimp only at hmem
    split_ifs at hmem
    · exact List.mem_of_mem_tail hmem
    · exact hmem
  | send text =>
    rw [step] at hstep
    split_ifs at hstep
    cases hstep
    intro hmem
    rw [Client.lists_operation]
    exact h hmem
  | reload =>
    rw [step] at hstep
    split_ifs at hstep
    cases hstep
    exact h.showMessages
  | call op =>
    rw [step] at hstep
    split_ifs at hstep
    cases hstep
    exact h.follow (by rw [Client.lists_operation])
  | client e =>
    rw [step] at hstep
    split_ifs at hstep with hout
    obtain ⟨c, hc, rfl⟩ := Option.map_eq_some_iff.mp hstep
    exact h.follow (currentChatId_step hout hc)

/-- A chat that is opened while the backend is busy is not shown. -/
theorem step_offScreen {e : Event} (hstep : ui.step qt e = some ui') (he : ¬ ui.OpensFree e) :
    ¬ ui'.OnScreen := by
  simp only [OpensFree, not_forall, not_or] at he
  obtain ⟨chatId, rfl, hbusy, hother⟩ := he
  obtain ⟨hhead, hchat, hlist⟩ := step_openChat hstep
  intro hscreen
  have heq := hscreen hhead
  rw [hchat, hlist, if_neg hbusy] at heq
  exact hother heq

/-- **The conversation on screen.** Whenever there are messages on the screen, they are those of
the chat that is written to, if and only if every chat is opened while the backend is free, or is
the one shown last. -/
theorem always_onScreen_iff (qt : Qt) (es : List Event) :
    Always (step qt) OnScreen initial es ↔ EachStep (step qt) OpensFree initial es :=
  always_iff_eachStep (I := Synchronised) (P := OnScreen) (fun _ h => h.onScreen)
    (fun _ _ _ h hstep he => step_synchronised h hstep he)
    (fun _ _ _ _ hstep he => step_offScreen hstep he) initial_synchronised

/-- Two chats are loaded, the first one is read, and the second one is opened while the chats are
being reloaded. -/
def openedBusy : List Event :=
  [.client .connected, .client .ret, .call (.signin "u" "p"),
    .client (.frame (some (.response
      (.loginResponse (some { userId := 1, name := "u", email := "u" }))))), .client .ret,
    .client (.frame (some (.response (.contactsResponse [])))),
    .client (.frame (some (.response
      (.chatsResponse [{ chatId := 4, title := "v" }, { chatId := 5, title := "w" }])))),
    .client .ret, .openChat 4,
    .client (.frame (some (.response (.messagesResponse [{ senderId := 2, text := "m" }])))),
    .client .ret, .back, .call .loadChats, .openChat 5]

/-- The messages of chat 4 are on the screen, and the send button writes to chat 5. -/
theorem not_always_onScreen_openedBusy :
    ¬ Always (step Qt.default) OnScreen initial openedBusy := by
  have hrun : (run (step Qt.default) initial openedBusy).map
      (fun ui => (ui.pages.head?, ui.client.lists.mesagesList.currentChatId, ui.currentChat)) =
      some (some .messages, 4, 5) := by
    decide
  intro h
  obtain ⟨ui, hui, heq⟩ := Option.map_eq_some_iff.mp hrun
  simp only [Prod.mk.injEq] at heq
  have hscreen := always_iff_prefixes.mp h openedBusy [] (List.append_nil _).symm ui hui heq.1
  rw [heq.2.1, heq.2.2] at hscreen
  exact absurd hscreen (by decide)

end Ui

end Elegram
