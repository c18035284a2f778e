import Elegram.Client.Lists
import Elegram.Foundation.RowChanges
import Elegram.Foundation.Run
import Mathlib.Data.List.Induction

/-!
# The signals of the lists

The public functions of the three lists, with the signals that they emit on their way. `setItems`
takes a pointer to a vector, which may be null. A handler sees the list as it is when its signal is
emitted, so a call is a list of moments, each a signal and a list (`Emitting`).

`rowChanges_iff` is about the models that are attached to the lists: they turn the signals into the
notifications of a view, and obey Qt's rules exactly as long as no empty list is inserted or
removed.
`points_iff` is about the hash of `ContactsList`, whose entries point into the vector of contacts:
they point to current contacts exactly as long as no contacts are removed.
-/

namespace Elegram

open RowChanges Transition

/-! ### Signals -/

/-- The signals of a list; `preListCleared` has an argument for `MessagesList` only. -/
inductive ListSignal (κ : Type)
  | preItemsSetted (size : ℕ)
  | postItemsSetted
  | preListCleared (size : κ)
  | postListCleared
  deriving DecidableEq, Repr

/-- A list in the course of a call, and what the handlers have seen of it. -/
structure Emitting (κ σ : Type) where
  list : σ
  moments : List (ListSignal κ × σ)

namespace Emitting

variable {κ σ : Type}

/-- The list when a call begins. -/
def start (l : σ) : Emitting κ σ where
  list := l
  moments := []

def emit (signal : ListSignal κ) (s : Emitting κ σ) : Emitting κ σ :=
  { s with moments := s.moments ++ [(signal, s.list)] }

def modify (f : σ → σ) (s : Emitting κ σ) : Emitting κ σ := { s with list := f s.list }

/-- The end of a call: if there are new items, `put` is what makes them those of the list. -/
def insert {α : Type} (put : List α → σ → σ) (s : Emitting κ σ) :
    Option (List α) → Emitting κ σ
  | some vec => ((s.emit (.preItemsSetted vec.length)).modify (put vec)).emit .postItemsSetted
  | none => s

end Emitting

/-- The list after a call. -/
def listStep {κ σ ε : Type} (call : ε → Emitting κ σ → Emitting κ σ) (l : σ) (e : ε) : Option σ :=
  some (call e (.start l)).list

/-- What a model makes of the calls for its views, with the row counts that it reports. -/
def notifications {κ σ ε : Type} (call : ε → Emitting κ σ → Emitting κ σ)
    (setList : ListSignal κ → σ → RowChange) (rowCount : σ → ℕ) : List ε → σ → List (RowChange × ℤ)
  | [], _ => []
  | e :: es, l =>
    (call e (.start l)).moments.map (fun m => (setList m.1 m.2, (rowCount m.2 : ℤ))) ++
      notifications call setList rowCount es (call e (.start l)).list

/-! ### Chats and contacts -/

/-- The public functions of `ChatsList` and `ContactsList`. -/
inductive ListCall (α : Type)
  | setItems (vec : Option (List α))
  | reset

section Items

variable {α σ : Type} (items : σ → List α) (put : List α → σ → σ)

/-- `reset` of `ChatsList` and `ContactsList`. -/
def resetItems (s : Emitting Unit σ) : Emitting Unit σ :=
  if (items s.list).isEmpty then s
  else ((s.emit (.preListCleared ())).modify (put [])).emit .postListCleared

/-- `setItems` of `ChatsList`; that of `ContactsList` then fills its hash. -/
def setItemsOf (vec : Option (List α)) (s : Emitting Unit σ) : Emitting Unit σ :=
  (resetItems items put s).insert put vec

/-- What `setList` of `ChatsModel` and `ContactsModel` connects to the signals. -/
def setListOf : ListSignal Unit → σ → RowChange
  | .preItemsSetted size, _ => .beginInsertRows 0 (size - 1)
  | .postItemsSetted, _ => .endInsertRows
  | .preListCleared (), l => .beginRemoveRows 0 ((items l).length - 1)
  | .postListCleared, _ => .endRemoveRows

end Items

namespace ChatsList

def put (vec : List ChatItem) (_ : ChatsList) : ChatsList := { items := vec }

def call : ListCall ChatItem → Emitting Unit ChatsList → Emitting Unit ChatsList
  | .setItems vec => setItemsOf ChatsList.items put vec
  | .reset => resetItems ChatsList.items put

end ChatsList

/-- `ChatsModel`, from the calls of its list. -/
def ChatsModel.notifications : List (ListCall ChatItem) → ChatsList → List (RowChange × ℤ) :=
  Elegram.notifications ChatsList.call (setListOf ChatsList.items) fun l => l.items.length

/-- An entry of the hash: a pointer to an item of a vector. The vector of the list gets a new
version whenever its items are removed or it is replaced. -/
structure ItemRef where
  version : ℕ
  index : ℕ
  deriving DecidableEq, Repr

/-- `ContactsList` with the pointers of its hash. -/
structure ContactsIndex where
  items : List ContactItem
  version : ℕ
  idToItem : UInt64 → Option ItemRef

namespace ContactsIndex

def initial : ContactsIndex where
  items := []
  version := 0
  idToItem := fun _ => none

def put (vec : List ContactItem) (l : ContactsIndex) : ContactsIndex :=
  { l with items := vec, version := l.version + 1 }

/-- The entries for the items of a vector of the given version, each with its index. Later items
replace earlier ones. -/
def entries (version : ℕ) (items : List (ContactItem × ℕ)) : UInt64 → Option ItemRef :=
  items.foldl (fun hash item => Function.update hash item.1.userId (some ⟨version, item.2⟩))
    fun _ => none

/-- The hash is cleared and filled. -/
def fill (l : ContactsIndex) : ContactsIndex :=
  { l with idToItem := entries l.version l.items.zipIdx }

def call : ListCall ContactItem → Emitting Unit ContactsIndex → Emitting Unit ContactsIndex
  | .setItems vec, s => (setItemsOf ContactsIndex.items put vec s).modify fill
  | .reset, s => resetItems ContactsIndex.items put s

/-- The item that an entry points to, unless it has been removed. -/
def deref (l : ContactsIndex) (ref : ItemRef) : Option ContactItem :=
  if ref.version = l.version then l.items[ref.index]? else none

/-- Following a pointer to a removed item is undefined. -/
def getUserBy (senderId : UInt64) (l : ContactsIndex) : Option String :=
  match l.idToItem senderId with
  | some ref => (l.deref ref).map ContactItem.name
  | none => some "Unknown user_id (not found among contacts)"

end ContactsIndex

/-- `ContactsModel`, from the calls of its list. -/
def ContactsModel.notifications :
    List (ListCall ContactItem) → ContactsIndex → List (RowChange × ℤ) :=
  Elegram.notifications ContactsIndex.call (setListOf ContactsIndex.items) fun l => l.items.length

/-! ### Messages -/

namespace MessagesList

/-- The public functions of `MessagesList`. -/
inductive Call
  | setItems (vec : Option (List MessageItem))
  | setCurrentChatId (chatId : UInt64)

/-- The items are no longer shown. -/
def clear (s : Emitting ℕ MessagesList) : Emitting ℕ MessagesList :=
  ((s.emit (.preListCleared s.list.size)).modify fun l => { l with items := none }).emit
    .postListCleared

def call : Call → Emitting ℕ MessagesList → Emitting ℕ MessagesList
  | .setItems vec, s => (if s.list.items.isSome then clear s else s).insert setItems vec
  | .setCurrentChatId chatId, s =>
    if s.list.currentChatId ≠ chatId then
      let s := (clear s).modify fun l => { l with currentChatId := chatId }
      s.insert (fun items l => { l with items := some items })
        (s.list.mapToItems s.list.currentChatId)
    else s

end MessagesList

/-- What `setList` of `MessagesModel` connects to the signals. -/
def MessagesModel.setList : ListSignal ℕ → MessagesList → RowChange
  | .preItemsSetted size, _ => .beginInsertRows 0 (size - 1)
  | .postItemsSetted, _ => .endInsertRows
  | .preListCleared size, _ => .beginRemoveRows 0 (size - 1)
  | .postListCleared, _ => .endRemoveRows

/-- `MessagesModel`, from the calls of its list. -/
def MessagesModel.notifications : List MessagesList.Call → MessagesList → List (RowChange × ℤ) :=
  Elegram.notifications MessagesList.call MessagesModel.setList MessagesList.size

/-! ### Calls one after the other -/

theorem eachStep_listStep {κ σ ε : Type} {call : ε → Emitting κ σ → Emitting κ σ}
    {C : σ → ε → Prop} {l : σ} {e : ε} {es : List ε} :
    EachStep (listStep call) C l (e :: es) ↔
      C l e ∧ EachStep (listStep call) C (call e (.start l)).list es :=
  eachStep_cons rfl es

/-- A condition on the calls alone. -/
theorem eachStep_const {κ σ ε : Type} {call : ε → Emitting κ σ → Emitting κ σ} {C : ε → Prop}
    (l : σ) (es : List ε) : EachStep (listStep call) (fun _ e => C e) l es ↔ ∀ e ∈ es, C e := by
  induction es generalizing l with
  | nil => exact ⟨fun _ _ h => absurd h List.not_mem_nil, fun _ => trivial⟩
  | cons e es ih => rw [eachStep_listStep, ih, List.forall_mem_cons]

/-- If each call obeys the rules exactly when `C` holds, so do all of them. -/
theorem respects_notifications {κ σ ε : Type} {call : ε → Emitting κ σ → Emitting κ σ}
    (setList : ListSignal κ → σ → RowChange) (rowCount : σ → ℕ) {C : σ → ε → Prop}
    (hcall : ∀ l e rest, (View.showing (rowCount l)).Respects
        ((call e (.start l)).moments.map (fun m => (setList m.1 m.2, (rowCount m.2 : ℤ))) ++ rest) ↔
      C l e ∧ (View.showing (rowCount (call e (.start l)).list)).Respects rest)
    (es : List ε) (l : σ) :
    (View.showing (rowCount l)).Respects (notifications call setList rowCount es l) ↔
      EachStep (listStep call) C l es := by
  induction es generalizing l with
  | nil => exact ⟨fun _ => trivial, fun _ => View.respects_nil⟩
  | cons e es ih => rw [notifications, hcall, eachStep_listStep, ih]

/-- The insertion at the end of a call, for which the list has become empty. -/
theorem respects_insert {κ σ α : Type} (setList : ListSignal κ → σ → RowChange) (rowCount : σ → ℕ)
    (put : List α → σ → σ)
    (hbegin : ∀ size l, setList (.preItemsSetted size) l = .beginInsertRows 0 (size - 1))
    (hend : ∀ l, setList .postItemsSetted l = .endInsertRows)
    (hput : ∀ vec l, rowCount (put vec l) = vec.length) {s : Emitting κ σ} {n : ℕ} {P : Prop}
    (hs : ∀ rest, (View.showing n).Respects
        (s.moments.map (fun m => (setList m.1 m.2, (rowCount m.2 : ℤ))) ++ rest) ↔
      P ∧ (View.showing (rowCount s.list)).Respects rest)
    (hempty : rowCount s.list = 0) (vec : Option (List α)) (rest : List (RowChange × ℤ)) :
    (View.showing n).Respects
        ((s.insert put vec).moments.map (fun m => (setList m.1 m.2, (rowCount m.2 : ℤ))) ++ rest) ↔
      (P ∧ vec ≠ some []) ∧ (View.showing (rowCount (s.insert put vec).list)).Respects rest := by
  cases vec with
  | none => exact (hs rest).trans (and_congr_left fun _ => ⟨fun h => ⟨h, nofun⟩, And.left⟩)
  | some vec =>
    have hrows : (s.insert put (some vec)).moments.map
          (fun m => (setList m.1 m.2, (rowCount m.2 : ℤ))) ++ rest =
        s.moments.map (fun m => (setList m.1 m.2, (rowCount m.2 : ℤ))) ++
          ((RowChange.beginInsertRows 0 (vec.length - 1), 0) ::
            (RowChange.endInsertRows, (vec.length : ℤ)) :: rest) := by
      simp only [Emitting.insert, Emitting.emit, Emitting.modify, List.map_append, List.map_cons,
        List.map_nil, hbegin, hend, hput, hempty, List.append_assoc]
      rfl
    change _ ↔ _ ∧ (View.showing (rowCount (put vec s.list))).Respects rest
    rw [hrows, hs, hempty, View.respects_insert, hput, List.length_pos_iff, and_assoc, ne_eq, ne_eq,
      Option.some_inj]

/-! ### The models of chats and contacts -/

section Items

variable {α σ : Type} {items : σ → List α} {put : List α → σ → σ}

theorem items_resetItems (hput : ∀ vec l, items (put vec l) = vec) (s : Emitting Unit σ) :
    items (resetItems items put s).list = [] := by
  rw [resetItems]
  split_ifs with hempty
  · exact List.isEmpty_iff.mp hempty
  · exact hput [] _

theorem respects_resetItems (hput : ∀ vec l, items (put vec l) = vec) (l : σ)
    (rest : List (RowChange × ℤ)) :
    (View.showing (items l).length).Respects ((resetItems items put (.start l)).moments.map
        (fun m => (setListOf items m.1 m.2, ((items m.2).length : ℤ))) ++ rest) ↔
      True ∧
        (View.showing (items (resetItems items put (.start l)).list).length).Respects rest := by
  rw [items_resetItems hput, true_and]
  cases hitems : items l with
  | nil =>
    have hreset : resetItems items put (.start l) = .start l :=
      if_pos (List.isEmpty_iff.mpr hitems)
    rw [hreset]
    rfl
  | cons item rest' =>
    have hreset : resetItems items put (.start l) =
        ⟨put [] l, [(.preListCleared (), l), (.postListCleared, put [] l)]⟩ :=
      if_neg fun h => absurd ((List.isEmpty_iff.mp h).symm.trans hitems) (List.cons_ne_nil _ _).symm
    simp only [hreset, List.map_cons, List.map_nil, setListOf, hput, hitems]
    exact View.respects_remove.trans ⟨And.right, fun h => ⟨Nat.succ_pos _, h⟩⟩

/-- The calls of `ChatsList` and `ContactsList`. -/
theorem respects_calls (hput : ∀ vec l, items (put vec l) = vec)
    {call : ListCall α → Emitting Unit σ → Emitting Unit σ}
    (hreset : ∀ s, call .reset s = resetItems items put s)
    (hmoments : ∀ vec s, (call (.setItems vec) s).moments = (setItemsOf items put vec s).moments)
    (hitems : ∀ vec s,
      items (call (.setItems vec) s).list = items (setItemsOf items put vec s).list)
    (es : List (ListCall α)) (l : σ) :
    (View.showing (items l).length).Respects
        (notifications call (setListOf items) (fun l => (items l).length) es l) ↔
      ∀ e ∈ es, e ≠ .setItems (some []) := by
  refine (respects_notifications (setListOf items) (fun l => (items l).length)
    (fun l e rest => ?_) es l).trans (eachStep_const l es)
  cases e with
  | setItems vec =>
    rw [hmoments, hitems]
    refine (respects_insert (setListOf items) (fun l => (items l).length) put (fun _ _ => rfl)
      (fun _ => rfl) (fun vec l => by rw [hput]) (respects_resetItems hput l)
      (by rw [items_resetItems hput]; rfl) vec rest).trans ?_
    rw [true_and, ne_eq, ne_eq, ListCall.setItems.injEq]
    rfl
  | reset =>
    rw [hreset]
    refine (respects_resetItems hput l rest).trans (and_congr_left fun _ => ?_)
    exact ⟨fun _ => nofun, fun _ => trivial⟩

end Items

/-! ### The model of messages -/

namespace MessagesList

/-- The call neither inserts nor removes an empty list of messages. -/
def Visible (l : MessagesList) : Call → Prop
  | .setItems vec => l.items ≠ some [] ∧ vec ≠ some []
  | .setCurrentChatId chatId =>
    l.currentChatId = chatId ∨ 0 < l.size ∧ l.mapToItems chatId ≠ some []

theorem respects_clear (l : MessagesList) (rest : List (RowChange × ℤ)) :
    (View.showing l.size).Respects ((clear (.start l)).moments.map
        (fun m => (MessagesModel.setList m.1 m.2, (m.2.size : ℤ))) ++ rest) ↔
      0 < l.size ∧ (View.showing 0).Respects rest :=
  View.respects_remove

/-- Messages are shown, and there are some. -/
theorem size_pos_iff {l : MessagesList} (h : l.items.isSome) : 0 < l.size ↔ l.items ≠ some [] := by
  obtain ⟨items, hitems⟩ := Option.isSome_iff_exists.mp h
  rw [size, hitems, Option.map_some, Option.getD_some, List.length_pos_iff, ne_eq, ne_eq,
    Option.some_inj]

theorem respects_call (l : MessagesList) (e : Call) (rest : List (RowChange × ℤ)) :
    (View.showing l.size).Respects ((call e (.start l)).moments.map
        (fun m => (MessagesModel.setList m.1 m.2, (m.2.size : ℤ))) ++ rest) ↔
      l.Visible e ∧ (View.showing (call e (.start l)).list.size).Respects rest := by
  cases e with
  | setItems vec =>
    refine respects_insert MessagesModel.setList size setItems (fun _ _ => rfl) (fun _ => rfl)
      (fun _ _ => rfl) (fun rest => ?_) ?_ vec rest
    · split_ifs with hsome
      · exact (respects_clear l rest).trans (and_congr_left fun _ => size_pos_iff hsome)
      · have hnone : l.items ≠ some [] := fun h => hsome (by rw [Emitting.start, h]; rfl)
        exact ⟨fun h => ⟨hnone, h⟩, And.right⟩
    · split_ifs with hsome
      · rfl
      · have hnone : l.items = none := Option.not_isSome_iff_eq_none.mp hsome
        rw [Emitting.start, size, hnone]
        rfl
  | setCurrentChatId chatId =>
    rw [Visible, call]
    split_ifs with hchat
    · refine (respects_insert MessagesModel.setList size
        (fun items l => { l with items := some items }) (fun _ _ => rfl) (fun _ => rfl)
        (fun _ _ => rfl)
        (s := (clear (.start l)).modify fun l => { l with currentChatId := chatId })
        (respects_clear l) rfl (l.mapToItems chatId) rest).trans ?_
      refine and_congr_left fun _ => ⟨.inr, fun h => h.resolve_left hchat⟩
    · exact ⟨fun h => ⟨.inl (not_not.mp hchat), h⟩, And.right⟩

end MessagesList

/-- **Row changes.** The notifications of the three models obey the rules exactly as long as no
empty vector is inserted and, for the messages, no empty list is removed either. -/
theorem rowChanges_iff (chats : ChatsList) (chatCalls : List (ListCall ChatItem))
    (contacts : ContactsIndex) (contactCalls : List (ListCall ContactItem))
    (messages : MessagesList) (messageCalls : List MessagesList.Call) :
    ((View.showing chats.items.length).Respects (ChatsModel.notifications chatCalls chats) ↔
      ∀ e ∈ chatCalls, e ≠ .setItems (some [])) ∧
    ((View.showing contacts.items.length).Respects
        (ContactsModel.notifications contactCalls contacts) ↔
      ∀ e ∈ contactCalls, e ≠ .setItems (some [])) ∧
    ((View.showing messages.size).Respects (MessagesModel.notifications messageCalls messages) ↔
      EachStep (listStep MessagesList.call) MessagesList.Visible messages messageCalls) := by
  refine ⟨?_, ?_, ?_⟩
  · exact respects_calls (fun _ _ => rfl) (fun _ => rfl) (fun _ _ => rfl) (fun _ _ => rfl) _ _
  · exact respects_calls (fun _ _ => rfl) (fun _ => rfl) (fun _ _ => rfl) (fun _ _ => rfl) _ _
  · exact respects_notifications _ _ MessagesList.respects_call _ _

/-- A user without contacts: rows from 0 to -1 are inserted. -/
theorem not_respects_noContacts :
    ContactsModel.notifications [.setItems (some [])] .initial =
      [(.beginInsertRows 0 (-1), 0), (.endInsertRows, 0)] ∧
    ¬ (View.showing 0).Respects (ContactsModel.notifications [.setItems (some [])] .initial) := by
  have hrows : ContactsModel.notifications [.setItems (some [])] .initial =
      [(.beginInsertRows 0 (-1), 0), (.endInsertRows, 0)] := rfl
  refine ⟨hrows, fun h => ?_⟩
  rw [hrows] at h
  obtain ⟨⟨-, -, -, hlast⟩, -⟩ := h
  exact absurd hlast (by decide)

/-! ### The hash of the contacts -/

namespace ContactsIndex

/-- Every entry points to a current item. -/
def Sound (l : ContactsIndex) : Prop :=
  ∀ id ref, l.idToItem id = some ref → ref.version = l.version ∧ ref.index < l.items.length

/-- `getUserBy` finds a contact if there is one. -/
def Answers (l : ContactsIndex) : Prop :=
  ∀ id, (∃ item ∈ l.items, item.userId = id ∧ l.getUserBy id = some item.name) ∨
    (∀ item ∈ l.items, item.userId ≠ id) ∧
      l.getUserBy id = some "Unknown user_id (not found among contacts)"

/-- The entries are sound before, during and after the calls, and each call leaves the right
answers. -/
def Points : List (ListCall ContactItem) → ContactsIndex → Prop
  | [], l => l.Sound
  | e :: es, l =>
    l.Sound ∧ (∀ m ∈ (call e (.start l)).moments, m.2.Sound) ∧
      (call e (.start l)).list.Answers ∧ Points es (call e (.start l)).list

/-- The hash has been filled from the current items. -/
def Filled (l : ContactsIndex) : Prop := l.idToItem = entries l.version l.items.zipIdx

theorem entries_concat (version : ℕ) (items : List (ContactItem × ℕ)) (item : ContactItem × ℕ) :
    entries version (items ++ [item]) =
      Function.update (entries version items) item.1.userId (some ⟨version, item.2⟩) := by
  rw [entries, List.foldl_append]
  rfl

theorem mem_of_entries {version : ℕ} {items : List (ContactItem × ℕ)} {id : UInt64} {ref : ItemRef}
    (h : entries version items id = some ref) :
    ∃ item ∈ items, item.1.userId = id ∧ ref = ⟨version, item.2⟩ := by
  induction items using List.reverseRecOn with
  | nil => cases h
  | append_singleton items item ih =>
    rw [entries_concat, Function.update_apply] at h
    split_ifs at h with hid
    · cases h
      exact ⟨item, List.mem_concat_self, hid.symm, rfl⟩
    · obtain ⟨item', hmem, hrest⟩ := ih h
      exact ⟨item', List.mem_append_left _ hmem, hrest⟩

theorem entries_isSome {version : ℕ} {items : List (ContactItem × ℕ)} {item : ContactItem × ℕ}
    (h : item ∈ items) : (entries version items item.1.userId).isSome := by
  induction items using List.reverseRecOn with
  | nil => cases h
  | append_singleton items item' ih =>
    rw [entries_concat, Function.update_apply]
    split_ifs with hid
    · rfl
    · refine ih ((List.mem_append.mp h).resolve_right fun hmem => hid ?_)
      rw [List.mem_singleton.mp hmem]

theorem mem_zipIdx_getElem? {items : List ContactItem} {item : ContactItem × ℕ}
    (h : item ∈ items.zipIdx) : items[item.2]? = some item.1 :=
  List.mem_zipIdx_iff_getElem?.mp h

theorem Filled.sound {l : ContactsIndex} (h : l.Filled) : l.Sound := by
  intro id ref href
  rw [h] at href
  obtain ⟨item, hmem, -, rfl⟩ := mem_of_entries href
  exact ⟨rfl, (List.getElem?_eq_some_iff.mp (mem_zipIdx_getElem? hmem)).1⟩

theorem Filled.answers {l : ContactsIndex} (h : l.Filled) : l.Answers := by
  intro id
  rw [getUserBy]
  cases href : l.idToItem id with
  | some ref =>
    rw [h] at href
    obtain ⟨item, hmem, hid, rfl⟩ := mem_of_entries href
    have hget := mem_zipIdx_getElem? hmem
    refine .inl ⟨item.1, List.mem_of_getElem? hget, hid, ?_⟩
    simp only [deref, if_true, hget, Option.map_some]
  | none =>
    refine .inr ⟨fun item hmem hid => ?_, rfl⟩
    obtain ⟨i, hi⟩ := List.mem_iff_getElem?.mp hmem
    have hentry : (item, i) ∈ l.items.zipIdx := List.mem_zipIdx_iff_getElem?.mpr hi
    have hsome : (entries l.version l.items.zipIdx item.userId).isSome := entries_isSome hentry
    rw [← h, hid, href] at hsome
    cases hsome

theorem filled_fill (l : ContactsIndex) : l.fill.Filled := rfl

/-- Without contacts, the hash is empty. -/
theorem Filled.idToItem_of_empty {l : ContactsIndex} (h : l.Filled) (hempty : l.items = [])
    (id : UInt64) : l.idToItem id = none := by
  rw [h, hempty]
  rfl

/-- A call without contacts: there are no entries that could point to a removed item. -/
theorem call_of_empty {l : ContactsIndex} (h : l.Filled) (hempty : l.items = [])
    (e : ListCall ContactItem) : (∀ m ∈ (call e (.start l)).moments, m.2.Sound) ∧
      (call e (.start l)).list.Filled := by
  have hreset : resetItems ContactsIndex.items put (.start l) = .start l :=
    if_pos (List.isEmpty_iff.mpr hempty)
  cases e with
  | reset =>
    rw [call, hreset]
    exact ⟨fun m hm => absurd hm List.not_mem_nil, h⟩
  | setItems vec =>
    refine ⟨fun m hm => ?_, filled_fill _⟩
    rw [call, setItemsOf, hreset] at hm
    cases vec with
    | none => exact absurd hm List.not_mem_nil
    | some vec =>
      have hmem : m = (.preItemsSetted vec.length, l) ∨ m = (.postItemsSetted, put vec l) := by
        simpa [Emitting.insert, Emitting.emit, Emitting.modify, Emitting.start] using hm
      have hnone := h.idToItem_of_empty hempty
      rcases hmem with rfl | rfl
      · exact h.sound
      · intro id ref href
        exact absurd (href.symm.trans (hnone id)) nofun

/-- When contacts are removed, the entries that point to them are still there. -/
theorem exists_stale {l : ContactsIndex} (h : l.Filled) (hne : l.items ≠ [])
    (e : ListCall ContactItem) : ∃ m ∈ (call e (.start l)).moments, ¬ m.2.Sound := by
  have hreset : resetItems ContactsIndex.items put (.start l) =
      ⟨put [] l, [(.preListCleared (), l), (.postListCleared, put [] l)]⟩ :=
    if_neg fun hempty => hne (List.isEmpty_iff.mp hempty)
  have hmem : (ListSignal.postListCleared, put [] l) ∈ (call e (.start l)).moments := by
    cases e with
    | reset =>
      rw [call, hreset]
      exact List.mem_cons_of_mem _ (List.mem_singleton_self _)
    | setItems vec =>
      rw [call, setItemsOf, hreset]
      cases vec <;> simp [Emitting.insert, Emitting.emit, Emitting.modify]
  refine ⟨_, hmem, fun hsound => ?_⟩
  obtain ⟨item, items, hitems⟩ := List.exists_cons_of_ne_nil hne
  have hentry : (item, 0) ∈ l.items.zipIdx := by
    rw [hitems]
    exact List.mem_cons_self ..
  have hsome : (entries l.version l.items.zipIdx item.userId).isSome := entries_isSome hentry
  obtain ⟨ref, href⟩ := Option.isSome_iff_exists.mp hsome
  rw [← h] at href
  exact absurd (hsound _ ref href).2 (Nat.not_lt_zero _)

theorem points_iff_of_filled {l : ContactsIndex} (h : l.Filled) (es : List (ListCall ContactItem)) :
    Points es l ↔ EachStep (listStep call) (fun l _ => l.items = []) l es := by
  induction es generalizing l with
  | nil => exact ⟨fun _ => trivial, fun _ => h.sound⟩
  | cons e es ih =>
    rw [eachStep_listStep, Points]
    by_cases hempty : l.items = []
    · obtain ⟨hmoments, hfilled⟩ := call_of_empty h hempty e
      rw [ih hfilled]
      exact ⟨fun hp => ⟨hempty, hp.2.2.2⟩, fun hp => ⟨h.sound, hmoments, hfilled.answers, hp.2⟩⟩
    · obtain ⟨m, hm, hstale⟩ := exists_stale h hempty e
      exact ⟨fun hp => absurd (hp.2.1 m hm) hstale, fun hp => absurd hp.1 hempty⟩

/-- **Pointers.** The hash points to current items at all times, and the calls leave the right
answers, exactly as long as all calls are made while there are no contacts. -/
theorem points_iff (es : List (ListCall ContactItem)) :
    Points es initial ↔ EachStep (listStep call) (fun l _ => l.items = []) initial es :=
  points_iff_of_filled (show initial.Filled from rfl) es

/-- A contact, and then `reset`: the entry of the contact remains. -/
def shownOnce : List (ListCall ContactItem) :=
  [.setItems (some [{ userId := 1, name := "a", email := "e" }]), .reset]

/-- `getUserBy` follows a pointer to the contact that has been removed. -/
theorem not_points_shownOnce :
    (run (listStep call) initial shownOnce).map (getUserBy 1) = some none ∧
    ¬ Points shownOnce initial := by
  refine ⟨rfl, fun h => ?_⟩
  obtain ⟨m, hm, hstale⟩ := exists_stale (l := (call (.setItems (some
    [{ userId := 1, name := "a", email := "e" }])) (.start initial)).list) (filled_fill _)
    (List.cons_ne_nil _ _) .reset
  exact hstale (h.2.2.2.2.1 m hm)

end ContactsIndex

/-! ### The lists between the calls -/

theorem ChatsList.call_setItems (vec : List ChatItem) (l : ChatsList) :
    (ChatsList.call (.setItems (some vec)) (.start l)).list = l.setItems vec :=
  rfl

theorem MessagesList.call_setItems (vec : List MessageItem) (l : MessagesList) :
    (MessagesList.call (.setItems (some vec)) (.start l)).list = l.setItems vec := by
  cases hitems : l.items <;>
    simp [MessagesList.call, MessagesList.clear, Emitting.start, Emitting.insert, Emitting.emit,
      Emitting.modify, MessagesList.setItems, hitems]

theorem MessagesList.call_setCurrentChatId (chatId : UInt64) (l : MessagesList) :
    (MessagesList.call (.setCurrentChatId chatId) (.start l)).list = l.setCurrentChatId chatId := by
  rw [MessagesList.call, MessagesList.setCurrentChatId]
  split_ifs with hchat hsame hsame
  · cases hitems : l.mapToItems chatId <;>
      simp [MessagesList.clear, Emitting.start, Emitting.insert, Emitting.emit, Emitting.modify,
        hitems]
  · exact absurd hchat hsame
  · exact absurd hsame hchat
  · rfl

namespace ContactsIndex

/-- The items instead of the pointers to them. -/
def toContactsList (l : ContactsIndex) : ContactsList where
  items := l.items
  idToItem := fun id => (l.idToItem id).bind l.deref

theorem bind_entries {l : ContactsIndex} {items : List (ContactItem × ℕ)}
    (h : ∀ item ∈ items, l.items[item.2]? = some item.1) :
    (fun id => (entries l.version items id).bind l.deref) =
      ContactsList.fill (items.map Prod.fst) := by
  induction items using List.reverseRecOn with
  | nil => rfl
  | append_singleton items item ih =>
    have hfill : ContactsList.fill ((items ++ [item]).map Prod.fst) =
        Function.update (ContactsList.fill (items.map Prod.fst)) item.1.userId (some item.1) := by
      rw [List.map_append, ContactsList.fill, List.foldl_append]
      rfl
    rw [hfill, ← ih fun item' hmem => h item' (List.mem_append_left _ hmem)]
    funext id
    rw [entries_concat, Function.update_apply, Function.update_apply]
    split_ifs
    · exact (if_pos rfl).trans (h item List.mem_concat_self)
    · rfl

/-- Without the pointers, `setItems` is that of `ContactsList`. -/
theorem toContactsList_setItems (vec : List ContactItem) (l : ContactsIndex) :
    (call (.setItems (some vec)) (.start l)).list.toContactsList =
      l.toContactsList.setItems vec := by
  have hitems : (call (.setItems (some vec)) (.start l)).list.items = vec := rfl
  have hfilled : (call (.setItems (some vec)) (.start l)).list.Filled := filled_fill _
  rw [toContactsList, hfilled, bind_entries fun _ => mem_zipIdx_getElem?, hitems,
    List.zipIdx_map_fst]
  rfl

end ContactsIndex

end Elegram
