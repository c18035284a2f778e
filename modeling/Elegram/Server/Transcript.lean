import Elegram.Server.StorageMachine
import Mathlib.Data.List.Induction

/-!
# Transcripts

`get_messages` selects the messages of a chat without `ORDER BY`. The first part says what the
function returns, action by action, for a given order of the rows (`getMessages_ensures`), and when
this is the list of the stored messages (`delivered_eq_iff`). The second part says what is stored
after any run of the machine: the accepted messages, in the order of their calls when each call was
committed before the next one was issued (`messagesOf_eq`). `transcript_iff` puts the two together.
-/

namespace Elegram

open ReadCommitted Transition Txn

/-! ### Reading the messages of a chat -/

theorem arrange_map {ρ σ : Type} (order : RowOrder) (f : ρ → σ) (rows : List ρ) :
    order.arrange (rows.map f) = (order.arrange rows).map f := by
  have hcast : ∀ {m n : ℕ} (h : m = n) (i : Fin n),
      (order.perm m (Fin.cast h.symm i)).val = (order.perm n i).val := by
    rintro m n rfl i
    rfl
  refine List.ext_getElem (by simp [RowOrder.arrange]) fun i hi hi' => ?_
  have hlt : i < rows.length := by simpa [RowOrder.arrange] using hi'
  have hsame : (order.perm (rows.map f).length ⟨i, by simpa using hlt⟩).val =
    (order.perm rows.length ⟨i, hlt⟩).val := hcast (List.length_map f) ⟨i, hlt⟩
  simp only [RowOrder.arrange, List.getElem_ofFn, List.getElem_map, List.get_eq_getElem, hsame]

/-- The message that a row becomes. -/
def received (row : PgInt × String) : MessageToRecieve :=
  { senderId := row.1.toUInt64, text := row.2 }

/-- The loop of `get_messages`, conversion by conversion. -/
def delivered : List (PgInt × String) → (ℕ → Choice) → List MessageToRecieve
  | [], _ => []
  | row :: rows, choices =>
    match choices 0, choices 1 with
    | .fail, _ => [{ senderId := 0, text := "" }]
    | .proceed _, .fail => [{ senderId := row.1.toUInt64, text := "" }]
    | .proceed _, .proceed _ => received row :: delivered rows (later (later choices))

theorem proceed_of_ne_fail {choice : Choice} (h : choice ≠ .fail) :
    ∃ order, choice = .proceed order := by
  cases choice with
  | fail => exact absurd rfl h
  | proceed order => exact ⟨order, rfl⟩

theorem fillResponse_eval (rows : List (PgInt × String)) (filled : List MessageToRecieve)
    (c : Conn postgres) :
    Prog.Ensures (fillResponse { senderId := 0, text := "" } messageSetters rows filled)
      (fun r _ => r = filled ++ delivered rows c.choices) c := by
  induction rows generalizing filled c with
  | nil => exact (List.append_nil filled).symm
  | cons row rows ih =>
    refine Prog.ensures_bind.mpr (Prog.ensures_attempt (fun h₀ => ?_) fun h₀ => ?_)
    · change _ = filled ++ delivered (row :: rows) c.choices
      simp only [delivered, h₀]
      rfl
    obtain ⟨order₀, h₀⟩ := proceed_of_ne_fail h₀
    refine Prog.ensures_attempt (fun h₁ => ?_) fun h₁ => ?_
    · have h₁ : c.choices 1 = .fail := h₁
      change _ = filled ++ delivered (row :: rows) c.choices
      simp only [delivered, h₀, h₁]
      rfl
    obtain ⟨order₁, h₁⟩ := proceed_of_ne_fail h₁
    have h₁ : c.choices 1 = .proceed order₁ := h₁
    have hrest := ih (filled ++ [received row]) { c with choices := later (later c.choices) }
    change Prog.Ensures _ (fun r _ => r = filled ++ delivered (row :: rows) c.choices) _
    simp only [delivered, h₀, h₁]
    rw [List.append_assoc] at hrest
    exact hrest

/-- What `get_messages` returns. -/
theorem getMessages_ensures (chatId : UInt64) (t : Tables) (seq : Sequences)
    (choices : ℕ → Choice) :
    Prog.Ensures (getMessages chatId) (fun r _ =>
      (r = [] ∧ (PgInt.ofUInt64? chatId = none ∨ ¬ Calm 3 choices)) ∨
      ∃ chat order, PgInt.ofUInt64? chatId = some chat ∧ Calm 3 choices ∧
        choices 1 = .proceed order ∧
        r = delivered (order.arrange (t.messagesOf chat)) (later (later (later choices))))
      ⟨t, seq, some 0, choices⟩ := by
  have hst : ∀ t seq, (Statement.getMessages chatId).exec t seq =
      Statement.select seq ((PgInt.ofUInt64? chatId).map t.messagesOf) := fun _ _ => rfl
  refine ensures_readRows hst (fun hbad _ _ => .inl ⟨rfl, ?_⟩)
    fun stored order hstored hcalm h₁ => ?_
  · exact hbad.imp_left Option.map_eq_none_iff.mp
  · obtain ⟨chat, hchat, rfl⟩ := Option.map_eq_some_iff.mp hstored
    refine Prog.Ensures.mono (fillResponse_eval _ [] _) fun r _ hr => ?_
    exact .inr ⟨chat, order, hchat, hcalm, h₁, hr⟩

/-- How many conversions have to succeed for all messages to be delivered: the last one may fail
when the last text is empty. -/
def conversions {ρ : Type} : List (ρ × String) → ℕ
  | [] => 0
  | [row] => if row.2 = "" then 1 else 2
  | _ :: row :: rows => conversions (row :: rows) + 2

theorem conversions_map {ρ σ : Type} {f : ρ × String → σ × String} (hf : ∀ row, (f row).2 = row.2)
    (rows : List (ρ × String)) : conversions (rows.map f) = conversions rows := by
  induction rows with
  | nil => rfl
  | cons row rows ih =>
    cases rows with
    | nil =>
      rw [List.map_cons, List.map_nil, conversions, conversions, hf]
    | cons row' rows =>
      rw [List.map_cons, List.map_cons, conversions, ← List.map_cons, ih, conversions]

theorem delivered_of_calm {rows : List (PgInt × String)} {choices : ℕ → Choice}
    (h : Calm (conversions rows) choices) : delivered rows choices = rows.map received := by
  induction rows generalizing choices with
  | nil => rfl
  | cons row rows ih =>
    cases rows with
    | nil =>
      rw [conversions] at h
      have hfirst : choices 0 ≠ .fail := h 0 (by split_ifs <;> decide)
      obtain ⟨order₀, h₀⟩ := proceed_of_ne_fail hfirst
      cases h₁ : choices 1 with
      | proceed order₁ =>
        simp only [delivered, h₀, h₁]
        rfl
      | fail =>
        have hempty : row.2 = "" := by
          by_contra hne
          rw [if_neg hne] at h
          exact h 1 (by decide) h₁
        simp only [delivered, h₀, h₁, List.map_cons, List.map_nil, received, hempty]
    | cons row' rows =>
      rw [conversions] at h
      obtain ⟨order₀, h₀⟩ := proceed_of_ne_fail (h 0 (by omega))
      obtain ⟨order₁, h₁⟩ := proceed_of_ne_fail (h 1 (by omega))
      have hrest := ih h.later.later
      rw [List.map_cons, ← hrest]
      simp only [delivered, h₀, h₁]

/-- Nothing is lost exactly if the rows come in the order of the stored ones and no conversion
fails that matters. No stored message has the sender 0. -/
theorem delivered_eq_iff {rows stored : List (PgInt × String)} (hperm : rows.Perm stored)
    (hsender : ∀ row ∈ stored, row.1 ≠ 0) (choices : ℕ → Choice) :
    delivered rows choices = stored.map received ↔
      rows = stored ∧ Calm (conversions stored) choices := by
  refine ⟨fun h => ?_, fun ⟨heq, hcalm⟩ => by rw [heq, delivered_of_calm hcalm]⟩
  induction rows generalizing stored choices with
  | nil =>
    have hnil : stored = [] := List.nil_perm.mp hperm
    subst hnil
    exact ⟨rfl, .zero _⟩
  | cons row rows ih =>
    -- a message that is not complete is the last one
    have hlast : ∀ m, [m] = stored.map received →
        rows = [] ∧ stored = [row] ∧ m = received row := by
      intro m hm
      obtain ⟨x, rfl, hx⟩ := List.map_eq_singleton_iff.mp hm.symm
      have hsingle := List.perm_singleton.mp hperm
      rw [List.cons.injEq] at hsingle
      obtain ⟨rfl, rfl⟩ := hsingle
      exact ⟨rfl, rfl, hx.symm⟩
    cases h₀ : choices 0 with
    | fail =>
      simp only [delivered, h₀] at h
      obtain ⟨-, rfl, hm⟩ := hlast _ h
      have hzero : (0 : PgInt).toUInt64 = row.1.toUInt64 := congrArg MessageToRecieve.senderId hm
      exact absurd (PgInt.toUInt64_injective hzero).symm (hsender row (List.mem_singleton_self _))
    | proceed order₀ =>
      cases h₁ : choices 1 with
      | fail =>
        simp only [delivered, h₀, h₁] at h
        obtain ⟨rfl, rfl, hm⟩ := hlast _ h
        have hempty : "" = row.2 := congrArg MessageToRecieve.text hm
        refine ⟨rfl, ?_⟩
        rw [conversions, if_pos hempty.symm]
        exact .cons (by rw [h₀]; exact fun h => by cases h) (.zero _)
      | proceed order₁ =>
        simp only [delivered, h₀, h₁] at h
        obtain ⟨x, stored', rfl, hx, hrest⟩ := List.map_eq_cons_iff.mp h.symm
        have hinj : x = row := by
          obtain ⟨id, text⟩ := x
          obtain ⟨id', text'⟩ := row
          simp only [received, MessageToRecieve.mk.injEq] at hx
          rw [PgInt.toUInt64_injective hx.1, hx.2]
        subst hinj
        obtain ⟨rfl, hcalm⟩ := ih hperm.cons_inv
          (fun row hrow => hsender row (List.mem_cons_of_mem _ hrow)) _ hrest.symm
        refine ⟨rfl, ?_⟩
        have hfirst : Calm 2 choices := .cons (by rw [h₀]; exact fun h => by cases h)
          (.cons (by rw [later, h₁]; exact fun h => by cases h) (.zero _))
        intro k hk
        cases rows with
        | nil =>
          rw [conversions] at hk
          refine hfirst k ?_
          split_ifs at hk <;> omega
        | cons row' rows =>
          rw [conversions] at hk
          match k with
          | 0 => exact hfirst 0 (by decide)
          | 1 => exact hfirst 1 (by decide)
          | k + 2 => exact hcalm k (by omega)

/-- A stored message, as its sender and its reader know it. -/
def sentPair (row : PgInt × String) : UInt64 × String := (row.1.toUInt64, row.2)

/-- What a reader gets of an accepted message. -/
def asMessage (x : UInt64 × String) : MessageToRecieve := { senderId := x.1, text := x.2 }

theorem sentPair_injective : Function.Injective sentPair := by
  rintro ⟨id, text⟩ ⟨id', text'⟩ h
  obtain ⟨hid, htext⟩ := Prod.mk.inj h
  exact Prod.ext (PgInt.toUInt64_injective hid) htext

/-- When `get_messages` returns what is stored. -/
theorem getMessages_eval_iff {chatId : UInt64} {t : Tables} {sent : List (UInt64 × String)}
    (hsent : ∀ chat, PgInt.ofUInt64? chatId = some chat → (t.messagesOf chat).map sentPair = sent ∧
      ∀ row ∈ t.messagesOf chat, row.1 ≠ 0)
    (hnone : PgInt.ofUInt64? chatId = none → sent = []) (seq : Sequences) (choices : ℕ → Choice) :
    ((getMessages chatId).eval ⟨t, seq, some 0, choices⟩).1 = sent.map asMessage ↔
      sent = [] ∨ Calm (3 + conversions sent) choices ∧
        ∀ order, choices 1 = .proceed order → order.arrange sent = sent := by
  have hresult := getMessages_ensures chatId t seq choices
  rw [Prog.Ensures] at hresult
  generalize ((getMessages chatId).eval ⟨t, seq, some 0, choices⟩).1 = r at hresult
  rcases hresult with ⟨rfl, hbad⟩ | ⟨chat, order, hchat, hcalm, horder, rfl⟩
  · rcases hbad with hchat | hcalm
    · rw [hnone hchat]
      simp
    · constructor
      · exact fun h => .inl (List.map_eq_nil_iff.mp h.symm)
      · rintro (rfl | ⟨h, -⟩)
        · rfl
        · exact absurd (calm_add.mp h).1 hcalm
  · obtain ⟨rfl, hsender⟩ := hsent chat hchat
    have hperm := order.arrange_perm (t.messagesOf chat)
    have hmap : ((t.messagesOf chat).map sentPair).map asMessage =
        (t.messagesOf chat).map received := by rw [List.map_map]; rfl
    rw [hmap, delivered_eq_iff hperm hsender, conversions_map (f := sentPair) fun _ => rfl,
      calm_add]
    constructor
    · rintro ⟨hrows, hconversions⟩
      refine .inr ⟨⟨hcalm, hconversions⟩, fun order' horder' => ?_⟩
      cases horder.symm.trans horder'
      rw [arrange_map, hrows]
    · rintro (hnil | ⟨⟨-, hconversions⟩, hrows⟩)
      · rw [List.map_eq_nil_iff] at hnil
        rw [hnil] at hperm ⊢
        exact ⟨List.perm_nil.mp hperm, .zero _⟩
      · have heq := hrows order horder
        rw [arrange_map] at heq
        exact ⟨List.map_injective_iff.mpr sentPair_injective heq, hconversions⟩

/-! ### What is stored -/

namespace StorageMachine

variable {hashPassword : String → List UInt8} {m m' : StorageMachine} {chatId : UInt64}
  {es : List (Machine.Event StorageCall)}

/-- The sender and the text of the message that a call has sent to the chat, if it has returned
true. -/
def acceptedBy (chatId : UInt64)
    (t : Transaction postgres StorageCall ((op : StorageCall) × op.Result)) :
    Option (UInt64 × String) :=
  match t.prog with
  | .ret ⟨.sendMessage senderId mesg, result⟩ =>
    if result = true ∧ mesg.chatId = chatId then some (senderId, mesg.text) else none
  | _ => none

/-- The messages accepted for a chat, in the order in which their calls were issued. -/
def accepted (m : StorageMachine) (chatId : UInt64) : List (UInt64 × String) :=
  m.txns.filterMap (acceptedBy chatId)

/-- The `i`-th call has sent a message to the chat. -/
def AcceptedAt (m : StorageMachine) (chatId : UInt64) (i : ℕ) : Prop :=
  ∃ t, m.txns[i]? = some t ∧ (acceptedBy chatId t).isSome

/-- Each of the calls that send a message to the chat has been committed before the next one of
them is issued. -/
def InTurn (hashPassword : String → List UInt8) (es : List (Machine.Event StorageCall))
    (m : StorageMachine) (chatId : UInt64) : Prop :=
  ∀ es₁ op es₂ (m₁ : StorageMachine) i, es = es₁ ++ .call op :: es₂ →
    run (Machine.step (storageBody hashPassword)) (Machine.initial .initial) es₁ = some m₁ →
    i < m₁.txns.length → m.AcceptedAt chatId i → m.AcceptedAt chatId m₁.txns.length →
    m₁.AcceptedAt chatId i

theorem acceptedBy_eq_some {t : Transaction postgres StorageCall ((op : StorageCall) × op.Result)}
    {x : UInt64 × String} : acceptedBy chatId t = some x ↔ ∃ mesg,
      t.prog = .ret ⟨.sendMessage x.1 mesg, true⟩ ∧ mesg.chatId = chatId ∧ mesg.text = x.2 := by
  rw [acceptedBy]
  constructor
  · intro h
    split at h
    · rename_i senderId mesg result hprog
      split_ifs at h with hcond
      obtain ⟨rfl, hchat⟩ := hcond
      cases h
      exact ⟨mesg, hprog, hchat, rfl⟩
    · cases h
  · rintro ⟨mesg, hprog, hchat, htext⟩
    rw [hprog]
    simp only [hchat, htext, and_self, if_true]

theorem AcceptedAt.of_run {i : ℕ} (h : m.AcceptedAt chatId i)
    (hrun : run (Machine.step (storageBody hashPassword)) m es = some m') :
    m'.AcceptedAt chatId i := by
  obtain ⟨t, ht, hsome⟩ := h
  obtain ⟨x, hx⟩ := Option.isSome_iff_exists.mp hsome
  obtain ⟨mesg, hprog, -, -⟩ := acceptedBy_eq_some.mp hx
  exact ⟨t, Machine.getElem?_of_returned ht hprog hrun, hsome⟩

/-- A call has not returned when it is issued. -/
theorem acceptedBy_call (op : StorageCall) :
    acceptedBy chatId ⟨op, storageBody hashPassword op, some 0, []⟩ = none := by
  cases op <;> rfl

variable (chatId) in
/-- A call that is under way has accepted nothing. -/
theorem acceptedBy_of_act {t : Transaction postgres StorageCall ((op : StorageCall) × op.Result)}
    {tables : Tables} {seq : Sequences} {choice : Choice}
    {eff : Prog.Effect postgres ((op : StorageCall) × op.Result)}
    (h : t.prog.act tables seq t.own choice = some eff) : acceptedBy chatId t = none := by
  cases hx : acceptedBy chatId t with
  | none => rfl
  | some x =>
    obtain ⟨mesg, hprog, -, -⟩ := acceptedBy_eq_some.mp hx
    rw [hprog] at h
    cases h

/-- A new entry behind the others. -/
theorem filterMap_set {ρ σ : Type} {f : ρ → Option σ} {l : List ρ} {i : ℕ} {x y : ρ}
    (h : l[i]? = some x) (hx : f x = none) (hlast : (f y).isSome → ∀ j z, i < j → l[j]? = some z →
      f z = none) : (l.set i y).filterMap f = l.filterMap f ++ (f y).toList := by
  induction l generalizing i with
  | nil => cases h
  | cons a l ih =>
    cases i with
    | zero =>
      cases h
      rw [List.set_cons_zero, List.filterMap_cons, List.filterMap_cons, hx]
      cases hy : f y with
      | none => simp
      | some b =>
        have hnil : l.filterMap f = [] := by
          refine List.filterMap_eq_nil_iff.mpr fun z hz => ?_
          obtain ⟨j, hj⟩ := List.getElem?_of_mem hz
          exact hlast (by rw [hy]; rfl) (j + 1) z (Nat.succ_pos j) hj
        simp [hnil]
    | succ i =>
      have hrest := ih (i := i) h fun hy j z hij hz => hlast hy (j + 1) z (by omega) hz
      rw [List.set_cons_succ, List.filterMap_cons, List.filterMap_cons, hrest]
      cases f a <;> simp

/-- A call that has sent a message has committed. -/
theorem exists_commit_of_accepted
    {t : Transaction postgres StorageCall ((op : StorageCall) × op.Result)} {i : ℕ}
    {x : UInt64 × String}
    (hrun : run (Machine.step (storageBody hashPassword)) (Machine.initial .initial) es = some m)
    (ht : m.txns[i]? = some t) (hx : acceptedBy chatId t = some x) :
    ∃ rows, committedBy hashPassword es i = [⟨t.label, rows⟩] ∧
      ∃ mesg, t.label = .sendMessage x.1 mesg := by
  obtain ⟨mesg, hprog, -, -⟩ := acceptedBy_eq_some.mp hx
  obtain ⟨hop, committed, houtcome, hc⟩ := outcome_of_run hrun ht hprog
  obtain ⟨-, -, rfl⟩ : true = true ∧ _ ∧ committed = _ :=
    houtcome.resolve_right fun h => by cases h.1
  rw [hop]
  exact ⟨_, hc, mesg, rfl⟩

/-- What a call commits to a chat is the message that it has sent there. -/
theorem messagesOf_committed
    {t : Transaction postgres StorageCall ((op : StorageCall) × op.Result)} {i : ℕ} {rows : Tables}
    {chat : PgInt}
    (hrun : run (Machine.step (storageBody hashPassword)) (Machine.initial .initial) es = some m)
    (ht : m.txns[i]? = some t) (hmem : ⟨t.label, rows⟩ ∈ committedBy hashPassword es i)
    (hchat : PgInt.ofUInt64? chatId = some chat) :
    (rows.messagesOf chat).map sentPair = (acceptedBy chatId t).toList := by
  obtain ⟨-, hwrites⟩ := writes_of_run hrun ht hmem
  dsimp only at hwrites
  rcases hwrites.kind.2.1 with hnil | ⟨senderId, mesg, hop⟩
  · have hnone : acceptedBy chatId t = none := by
      cases hx : acceptedBy chatId t with
      | none => rfl
      | some x =>
        obtain ⟨-, -, mesg, hop⟩ := exists_commit_of_accepted hrun ht hx
        rw [hop] at hwrites
        obtain ⟨_, _, -, -, -, rfl⟩ := hwrites
        cases hnil
    rw [hnone, Tables.messagesOf, hnil]
    rfl
  · obtain ⟨result, hret, houtcome⟩ := returned_of_committedBy hrun ht hop trivial hmem
    obtain ⟨rfl, -, -⟩ : result = true ∧ _ ∧ _ := houtcome.resolve_right fun h => by cases h.2
    rw [hop] at hwrites
    obtain ⟨sender, chat', hsender, hchat', -, rfl⟩ := hwrites
    rw [acceptedBy, hret]
    dsimp only
    by_cases hsame : mesg.chatId = chatId
    · rw [hsame, hchat, Option.some_inj] at hchat'
      subst hchat'
      rw [if_pos ⟨rfl, hsame⟩]
      simp [Tables.messagesOf, sentPair, PgInt.toUInt64_of_eq_some hsender]
    · have hne : chat' ≠ chat := by
        rintro rfl
        have hid := PgInt.toUInt64_of_eq_some hchat'
        exact hsame (hid.symm.trans (PgInt.toUInt64_of_eq_some hchat))
      rw [if_neg fun h => hsame h.2]
      simp [Tables.messagesOf, hne]

/-- The messages of a chat after an action of the `i`-th call, if no later call has sent one. -/
theorem messagesOf_of_act {i : ℕ} {choice : Choice} {chat : PgInt}
    (hrun : run (Machine.step (storageBody hashPassword)) (Machine.initial .initial) es = some m)
    (hstep : m.step (storageBody hashPassword) (.act i choice) = some m')
    (hchat : PgInt.ofUInt64? chatId = some chat)
    (hlast : m'.AcceptedAt chatId i → ∀ j, i < j → ¬ m.AcceptedAt chatId j)
    (h : (m.tables.messagesOf chat).map sentPair = m.accepted chatId) :
    (m'.tables.messagesOf chat).map sentPair = m'.accepted chatId := by
  have hrun' := run_concat hrun hstep
  obtain ⟨t, eff, ht, heff, -, hm'⟩ := Machine.step_act hstep
  have hi := (List.getElem?_eq_some_iff.mp ht).1
  generalize ht' : ({ t with
    prog := eff.prog, own := eff.own
    history := t.history ++ (m.entry t choice).toList } :
      Transaction postgres StorageCall ((op : StorageCall) × op.Result)) = t' at hm'
  have htxns : m'.txns = m.txns.set i t' := by rw [hm']
  have hget : m'.txns[i]? = some t' := by rw [htxns, List.getElem?_set_self hi]
  have hlabel : t'.label = t.label := by rw [← ht']
  have hnone : acceptedBy chatId t = none := acceptedBy_of_act chatId heff
  have haccepted : m'.accepted chatId = m.accepted chatId ++ (acceptedBy chatId t').toList := by
    rw [accepted, htxns]
    refine filterMap_set ht hnone fun hsome j z hij hz => ?_
    have hno := hlast ⟨t', hget, hsome⟩ j hij
    cases hz' : acceptedBy chatId z with
    | none => rfl
    | some x => exact absurd ⟨z, hz, by rw [hz']; rfl⟩ hno
  have hby : committedBy hashPassword (es ++ [.act i choice]) i =
      committedBy hashPassword es i ++ eff.committed.toList.map fun rows => ⟨t.label, rows⟩ := by
    rw [committedBy, Machine.committedBy_append hrun i, Machine.committedBy_cons hstep,
      Machine.newCommits_act_self (by rw [hm']), Machine.committedBy, List.append_nil]
    rfl
  rw [haccepted, ← h]
  cases hcommitted : eff.committed with
  | none =>
    -- a call that returns true has committed before, and has returned then
    have hsame : acceptedBy chatId t' = none := by
      cases hx : acceptedBy chatId t' with
      | none => rfl
      | some x =>
        obtain ⟨rows, hc, mesg, hop⟩ := exists_commit_of_accepted hrun' hget hx
        rw [hby, hcommitted, Option.toList_none, List.map_nil, List.append_nil] at hc
        obtain ⟨result, hret, -⟩ := returned_of_committedBy hrun ht (hlabel.symm.trans hop) trivial
          (by rw [hc]; exact List.mem_singleton_self _)
        rw [hret] at heff
        cases heff
    have htables : m'.tables = m.tables := by
      rw [hm', hcommitted]
      simp [Machine.tables]
    rw [hsame, htables, Option.toList_none, List.append_nil]
  | some rows =>
    have htables : m'.tables = m.tables + rows := by
      rw [hm', hcommitted]
      exact tablesOf_concat ..
    have hmem : (⟨t'.label, rows⟩ : Commit postgres StorageCall) ∈
        committedBy hashPassword (es ++ [.act i choice]) i := by
      rw [hby, hcommitted, hlabel]
      exact List.mem_append_right _ (List.mem_singleton_self _)
    rw [htables, Tables.messagesOf_add, List.map_append,
      messagesOf_committed hrun' hget hmem hchat]

theorem InTurn.initial_part {more : List (Machine.Event StorageCall)}
    (h : InTurn hashPassword (es ++ more) m' chatId)
    (hrun : run (Machine.step (storageBody hashPassword)) m more = some m') :
    InTurn hashPassword es m chatId := by
  intro es₁ op es₂ m₁ i hes hrun₁ hi hfirst hsecond
  refine h es₁ op (es₂ ++ more) m₁ i ?_ hrun₁ hi (hfirst.of_run hrun) (hsecond.of_run hrun)
  rw [hes, List.append_assoc, List.cons_append]

/-- **What is stored.** If the messages of a chat are sent in turn, the accepted ones are stored in
the order in which they were sent. -/
theorem messagesOf_eq {chat : PgInt}
    (hrun : run (Machine.step (storageBody hashPassword)) (Machine.initial .initial) es = some m)
    (hchat : PgInt.ofUInt64? chatId = some chat) (hturn : InTurn hashPassword es m chatId) :
    (m.tables.messagesOf chat).map sentPair = m.accepted chatId := by
  induction es using List.reverseRecOn generalizing m with
  | nil =>
    cases hrun
    rfl
  | append_singleton es e ih =>
    rw [run_append, Option.bind_eq_some_iff] at hrun
    obtain ⟨m₀, hrun₀, hstep'⟩ := hrun
    have hstep : m₀.step (storageBody hashPassword) e = some m := by
      simpa [run_cons] using hstep'
    have hbefore := ih hrun₀ (hturn.initial_part hstep')
    cases e with
    | call op =>
      cases hstep
      change (m₀.tables.messagesOf chat).map sentPair = List.filterMap (acceptedBy chatId) _
      rw [List.filterMap_append, List.filterMap_cons, acceptedBy_call, List.filterMap_nil,
        List.append_nil]
      exact hbefore
    | act i choice =>
      refine messagesOf_of_act hrun₀ hstep hchat (fun hi j hij hj => ?_) hbefore
      -- the `j`-th call was issued when the `i`-th had returned, but this one acts now
      have hlt : j < m₀.txns.length := by
        obtain ⟨_, hget, -⟩ := hj
        exact (List.getElem?_eq_some_iff.mp hget).1
      obtain ⟨es₁, op, es₂, m₁, rfl, hrun₁, rfl⟩ :=
        Machine.exists_call hrun₀ (Nat.zero_le _) hlt
      have hfirst : AcceptedAt m₁ chatId i :=
        hturn es₁ op (es₂ ++ [.act i choice]) m₁ i (by simp) hrun₁ hij hi (hj.of_run hstep')
      rw [run_append, hrun₁, Option.bind_some] at hrun₀
      obtain ⟨t, ht, hsome⟩ := hfirst.of_run hrun₀
      obtain ⟨t', eff, ht', heff, -, -⟩ := Machine.step_act hstep
      cases ht.symm.trans ht'
      rw [acceptedBy_of_act chatId heff] at hsome
      cases hsome

theorem accepted_of_step {e : Machine.Event StorageCall}
    (hstep : m.step (storageBody hashPassword) e = some m')
    (hsame : ∀ i, m'.AcceptedAt chatId i → m.AcceptedAt chatId i) :
    m'.accepted chatId = m.accepted chatId := by
  cases e with
  | call op =>
    cases hstep
    change List.filterMap (acceptedBy chatId) _ = _
    rw [List.filterMap_append, List.filterMap_cons, acceptedBy_call, List.filterMap_nil,
      List.append_nil]
    rfl
  | act i choice =>
    obtain ⟨t, eff, ht, heff, -, rfl⟩ := Machine.step_act hstep
    have hnone := acceptedBy_of_act chatId heff
    have hi := (List.getElem?_eq_some_iff.mp ht).1
    generalize ht' : ({ t with
      prog := eff.prog, own := eff.own
      history := t.history ++ (m.entry t choice).toList } :
        Transaction postgres StorageCall ((op : StorageCall) × op.Result)) = t' at hsame ⊢
    have hnone' : acceptedBy chatId t' = none := by
      by_contra hsome
      obtain ⟨t₀, ht₀, hsome₀⟩ :=
        hsame i ⟨t', List.getElem?_set_self hi, Option.isSome_iff_ne_none.mpr hsome⟩
      cases ht.symm.trans ht₀
      rw [hnone] at hsome₀
      cases hsome₀
    have hset := filterMap_set (y := t') ht hnone fun hsome => by
      rw [hnone'] at hsome
      cases hsome
    rw [hnone', Option.toList_none, List.append_nil] at hset
    exact hset

theorem accepted_of_run (hrun : run (Machine.step (storageBody hashPassword)) m es = some m')
    (hsame : ∀ i, m'.AcceptedAt chatId i → m.AcceptedAt chatId i) :
    m'.accepted chatId = m.accepted chatId := by
  induction es generalizing m with
  | nil =>
    cases hrun
    rfl
  | cons e es ih =>
    rw [run_cons, Option.bind_eq_some_iff] at hrun
    obtain ⟨m₁, hstep, hrun⟩ := hrun
    have hfirst : run (Machine.step (storageBody hashPassword)) m [e] = some m₁ := by
      rw [run_cons_of_step hstep, run_nil]
    rw [ih hrun fun i hi => (hsame i hi).of_run hfirst,
      accepted_of_step hstep fun i hi => hsame i (hi.of_run hrun)]

/-- Nothing is accepted for a chat whose number no chat has. -/
theorem accepted_eq_nil
    (hrun : run (Machine.step (storageBody hashPassword)) (Machine.initial .initial) es = some m)
    (hchat : PgInt.ofUInt64? chatId = none) : m.accepted chatId = [] := by
  refine List.filterMap_eq_nil_iff.mpr fun t ht => ?_
  cases hx : acceptedBy chatId t with
  | none => rfl
  | some x =>
    obtain ⟨i, hget⟩ := List.getElem?_of_mem ht
    obtain ⟨mesg, hprog, hsame, -⟩ := acceptedBy_eq_some.mp hx
    obtain ⟨hop, committed, houtcome, -⟩ := outcome_of_run hrun hget hprog
    obtain ⟨-, hhistory, -⟩ : true = true ∧ SendMessageHistory x.1 mesg t.history ∧ committed = _ :=
      houtcome.resolve_right fun h => by cases h.1
    have htraced := Machine.reachable_traced ⟨es, hrun⟩ t ht
    obtain ⟨_, _, -, hsome, -⟩ := hhistory.inserted htraced.valid
    rw [hsame, hchat] at hsome
    cases hsome

/-- The sender 0 of an empty response is nobody. -/
theorem sender_ne_zero (h : Reachable (Machine.step (storageBody hashPassword))
      (Machine.initial .initial) m) {chat : PgInt} {row : PgInt × String}
    (hrow : row ∈ m.tables.messagesOf chat) : row.1 ≠ 0 := by
  obtain ⟨message, hmem, rfl⟩ := List.mem_map.mp hrow
  have hregistered := ((reachable_integrity h).messages message (List.mem_of_mem_filter hmem)).1
  obtain ⟨client, hclient, hid⟩ := List.any_eq_true.mp hregistered
  have hnumber : message.senderId ∈ clientNumbering.numbers m.tables :=
    List.mem_map.mpr ⟨client, hclient, of_decide_eq_true hid⟩
  have hle := Numbering.le_val_of_reachable h hnumber
  intro hzero
  change message.senderId = 0 at hzero
  rw [hzero] at hle
  cases hle

/-- How the actions of the `i`-th call end in a run. -/
def endings (es : List (Machine.Event StorageCall)) (i : ℕ) : ℕ → Choice :=
  followedBy (Machine.choicesOf i es) fun _ => .proceed .stored

/-- `get_messages` is called in `m₁` and returns in `m`, and what has been accepted for the chat in
the end had been accepted when it was called. -/
structure ReadsAfter (hashPassword : String → List UInt8) (m₁ : StorageMachine) (chatId : UInt64)
    (es : List (Machine.Event StorageCall)) (m : StorageMachine)
    (result : List MessageToRecieve) : Prop where
  runs : run (Machine.step (storageBody hashPassword)) m₁
    (.call (.getMessages chatId) :: es) = some m
  returned : ∃ t, m.txns[m₁.txns.length]? = some t ∧ t.prog = .ret ⟨.getMessages chatId, result⟩
  after : ∀ i, m.AcceptedAt chatId i → m₁.AcceptedAt chatId i

/-- While `get_messages` is executed, it sees the same messages. -/
theorem similar_of_messagesOf {s t : Tables}
    (h : ∀ chat, PgInt.ofUInt64? chatId = some chat → s.messagesOf chat = t.messagesOf chat) :
    Prog.Similar postgres (· = Statement.getMessages chatId) (fun _ _ => True) s t := by
  rintro _ own seq seq' rfl -
  refine ⟨trivial, ?_⟩
  change ((PgInt.ofUInt64? chatId).map (s + own).messagesOf).map _ =
    ((PgInt.ofUInt64? chatId).map (t + own).messagesOf).map _
  cases hchat : PgInt.ofUInt64? chatId with
  | none => rfl
  | some chat =>
    have hadd : ∀ u : Tables, (u + own).messagesOf chat =
      u.messagesOf chat ++ Tables.messagesOf own chat := fun u => Tables.messagesOf_add u own chat
    have heq : (s + own).messagesOf chat = (t + own).messagesOf chat := by
      rw [hadd s, hadd t, h chat hchat]
    exact congrArg (fun rows => some (rows, (0 : Tables))) heq

/-- What `get_messages` returns in a run, it returns alone. -/
theorem ReadsAfter.eval {es₁ : List (Machine.Event StorageCall)} {m₁ : StorageMachine}
    {result : List MessageToRecieve} (h : ReadsAfter hashPassword m₁ chatId es m result)
    (hrun₁ : run (Machine.step (storageBody hashPassword)) (Machine.initial .initial) es₁ = some m₁)
    (hturn : InTurn hashPassword (es₁ ++ .call (.getMessages chatId) :: es) m chatId) :
    ((getMessages chatId).eval
      ⟨m₁.tables, m₁.sequences, some 0, endings es m₁.txns.length⟩).1 = result := by
  obtain ⟨hrun, ⟨t, ht, hret⟩, hafter⟩ := h
  have hstep : m₁.step (storageBody hashPassword) (.call (.getMessages chatId)) =
    some { m₁ with txns := m₁.txns ++ [⟨.getMessages chatId, storageBody hashPassword
      (.getMessages chatId), some 0, []⟩] } := rfl
  rw [run_cons_of_step hstep] at hrun
  -- the chat has the same messages in all states between `m₁` and `m`
  have hstored : ∀ {es₂ es₃ m₂}, es = es₂ ++ es₃ →
      run (Machine.step (storageBody hashPassword)) m₁ (.call (.getMessages chatId) :: es₂) =
        some m₂ → ∀ chat, PgInt.ofUInt64? chatId = some chat →
      m₂.tables.messagesOf chat = m₁.tables.messagesOf chat := by
    rintro es₂ es₃ m₂ rfl hrun₂ chat hchat
    have hrest : run (Machine.step (storageBody hashPassword)) m₂ es₃ = some m := by
      rw [run_cons_of_step hstep] at hrun₂
      rwa [run_append, hrun₂] at hrun
    have hall : run (Machine.step (storageBody hashPassword)) (Machine.initial .initial)
        (es₁ ++ .call (.getMessages chatId) :: es₂) = some m₂ := by
      rw [run_append, hrun₁, Option.bind_some, hrun₂]
    have hturn' : InTurn hashPassword ((es₁ ++ .call (.getMessages chatId) :: es₂) ++ es₃) m
        chatId := by
      rwa [List.append_assoc, List.cons_append]
    have hturn₂ := hturn'.initial_part hrest
    have hturn₁ := hturn₂.initial_part hrun₂
    refine List.map_injective_iff.mpr sentPair_injective ?_
    rw [messagesOf_eq hall hchat hturn₂, messagesOf_eq hrun₁ hchat hturn₁]
    exact accepted_of_run hrun₂ fun i hi => hafter i (hi.of_run hrest)
  have huses : Prog.Uses (E := postgres) (· = Statement.getMessages chatId)
      (storageBody hashPassword (.getMessages chatId)) := by
    refine (storageBody_uses (.getMessages chatId)).mono fun st hst => ?_
    cases st with
    | getMessages => exact congrArg Statement.getMessages hst
    | _ => cases hst
  have hstable := Machine.eval_of_run (S := (· = Statement.getMessages chatId))
    (T := m₁.tables) (fun st own seq rows ins hst hexec => ?_)
    (always_iff_prefixes.mpr fun es₂ es₃ hes m₂ hrun₂ => similar_of_messagesOf ?_)
    (List.getElem?_concat_length ..) huses rfl hrun ht hret m₁.sequences
    (fun _ => .proceed .stored)
  · rw [storageBody, Prog.eval_bind] at hstable
    exact eq_of_heq (Sigma.mk.inj hstable).2
  · subst hst
    change ((PgInt.ofUInt64? chatId).map _).map _ = _ at hexec
    obtain ⟨_, -, heq⟩ := Option.map_eq_some_iff.mp hexec
    exact (Prod.mk.inj heq).2.symm
  · exact hstored hes (by rw [run_cons_of_step hstep]; exact hrun₂)

/-- **Transcripts.** Suppose that the messages of a chat are sent in turn, and `get_messages` is
called when all of them have been accepted. It returns them all, each once and in the order in
which they were sent, exactly if there are none, or no action that matters fails and the database
returns the rows in the order in which they were inserted. -/
theorem transcript_iff {es₁ : List (Machine.Event StorageCall)} {m₁ : StorageMachine}
    {result : List MessageToRecieve}
    (hrun : run (Machine.step (storageBody hashPassword)) (Machine.initial .initial) es₁ = some m₁)
    (hread : ReadsAfter hashPassword m₁ chatId es m result)
    (hturn : InTurn hashPassword (es₁ ++ .call (.getMessages chatId) :: es) m chatId) :
    result = (m₁.accepted chatId).map asMessage ↔
      m₁.accepted chatId = [] ∨
      Calm (3 + conversions (m₁.accepted chatId)) (endings es m₁.txns.length) ∧
        ∀ order, endings es m₁.txns.length 1 = .proceed order →
          order.arrange (m₁.accepted chatId) = m₁.accepted chatId := by
  have hturn₁ := hturn.initial_part hread.runs
  rw [← hread.eval hrun hturn]
  exact getMessages_eval_iff (fun chat hchat => ⟨messagesOf_eq hrun hchat hturn₁,
    fun row hrow => sender_ne_zero ⟨es₁, hrun⟩ hrow⟩) (accepted_eq_nil hrun) _ _

/-! ### One call after the other -/

/-- All calls have returned. -/
def idle (m : StorageMachine) : Bool :=
  m.txns.all fun t => match t.prog with | .ret _ => true | _ => false

/-- Each call is issued when all others have returned. -/
def oneByOne (hashPassword : String → List UInt8) (m : StorageMachine) :
    List (Machine.Event StorageCall) → Bool
  | [] => true
  | e :: es =>
    (match e with | .call _ => m.idle | .act .. => true) &&
      match m.step (storageBody hashPassword) e with
      | none => true
      | some m' => oneByOne hashPassword m' es

theorem AcceptedAt.of_idle {i : ℕ} (h : m'.AcceptedAt chatId i) (hidle : m.idle)
    (hi : i < m.txns.length)
    (hrun : run (Machine.step (storageBody hashPassword)) m es = some m') :
    m.AcceptedAt chatId i := by
  have ht := List.getElem?_eq_getElem hi
  have hret := List.all_eq_true.mp hidle _ (List.getElem_mem hi)
  obtain ⟨t', ht', hsome⟩ := h
  cases hprog : m.txns[i].prog with
  | ret r =>
    cases (Machine.getElem?_of_returned ht hprog hrun).symm.trans ht'
    exact ⟨_, ht, hsome⟩
  | exec | commit | attempt =>
    rw [hprog] at hret
    cases hret

theorem idle_of_oneByOne {es₁ es₂ : List (Machine.Event StorageCall)} {op : StorageCall}
    (h : oneByOne hashPassword m (es₁ ++ .call op :: es₂))
    (hrun : run (Machine.step (storageBody hashPassword)) m es₁ = some m') : m'.idle := by
  induction es₁ generalizing m with
  | nil =>
    cases hrun
    rw [List.nil_append, oneByOne, Bool.and_eq_true] at h
    exact h.1
  | cons e es₁ ih =>
    rw [run_cons, Option.bind_eq_some_iff] at hrun
    obtain ⟨m₁, hstep, hrun⟩ := hrun
    rw [List.cons_append, oneByOne.eq_def, Bool.and_eq_true] at h
    obtain ⟨-, hrest⟩ := h
    rw [hstep] at hrest
    exact ih hrest hrun

theorem InTurn.of_oneByOne
    (h : oneByOne hashPassword (Machine.initial .initial : StorageMachine) es)
    (hrun : run (Machine.step (storageBody hashPassword)) (Machine.initial .initial) es = some m) :
    InTurn hashPassword es m chatId := by
  rintro es₁ op es₂ m₁ i rfl hrun₁ hi hfirst -
  rw [run_append, hrun₁, Option.bind_some] at hrun
  exact hfirst.of_idle (idle_of_oneByOne h hrun₁) hi hrun

/-- When all calls have returned, `get_messages` reads after them, if nothing else is called. -/
theorem ReadsAfter.of_idle {m₁ : StorageMachine} {result : List MessageToRecieve}
    (hidle : m₁.idle) (hrun : run (Machine.step (storageBody hashPassword)) m₁
      (.call (.getMessages chatId) :: es) = some m)
    (hlen : m.txns.length = m₁.txns.length + 1)
    (hret : (m.txns[m₁.txns.length]?.map Transaction.prog) =
      some (.ret ⟨.getMessages chatId, result⟩)) :
    ReadsAfter hashPassword m₁ chatId es m result := by
  obtain ⟨t, ht, hprog⟩ := Option.map_eq_some_iff.mp hret
  refine ⟨hrun, ⟨t, ht, hprog⟩, fun i hi => ?_⟩
  obtain ⟨t', ht', hsome⟩ := id hi
  have hlt := (List.getElem?_eq_some_iff.mp ht').1
  by_cases heq : i = m₁.txns.length
  · subst heq
    cases ht.symm.trans ht'
    rw [acceptedBy, hprog] at hsome
    cases hsome
  · exact hi.of_idle hidle (by omega) hrun

/-- Two clients have written to their chat, one after the other. -/
def twoMessages : List (Machine.Event StorageCall) :=
  [.call (.registration "" "a" "")] ++ acts 0 3 ++ [.call (.registration "" "b" "")] ++ acts 1 3 ++
    [.call (.createChat 1 "" 2)] ++ acts 2 9 ++
    [.call (.sendMessage 1 { chatId := 1, text := "m" })] ++ acts 3 4 ++
    [.call (.sendMessage 2 { chatId := 1, text := "n" })] ++ acts 4 4

/-- The actions of a `get_messages`, where the rows of its query come in the given order. -/
def reading (order : RowOrder) : List (Machine.Event StorageCall) :=
  acts 5 1 ++ [.act 5 (.proceed order)] ++ acts 5 5

theorem exists_twoMessages (order : RowOrder) (result : List MessageToRecieve)
    (hresult : (run (Machine.step (storageBody fun _ => [])) (Machine.initial .initial)
      (twoMessages ++ .call (.getMessages 1) :: reading order)).map
        (fun m : StorageMachine => (m.txns.length, m.txns[5]?.map Transaction.prog)) =
      some (6, some (.ret ⟨.getMessages 1, result⟩))) :
    ∃ m₁ m : StorageMachine, run (Machine.step (storageBody fun _ => []))
        (Machine.initial .initial) twoMessages = some m₁ ∧
      m₁.accepted 1 = [(1, "m"), (2, "n")] ∧ m₁.txns.length = 5 ∧
      ReadsAfter (fun _ => []) m₁ 1 (reading order) m result ∧
      InTurn (fun _ => []) (twoMessages ++ .call (.getMessages 1) :: reading order) m 1 := by
  have hsent : (run (Machine.step (storageBody fun _ => [])) (Machine.initial .initial)
      twoMessages).map (fun m : StorageMachine => (m.accepted 1, m.txns.length, m.idle)) =
      some ([(1, "m"), (2, "n")], 5, true) := rfl
  obtain ⟨m₁, hrun₁, hm₁⟩ := Option.map_eq_some_iff.mp hsent
  simp only [Prod.mk.injEq] at hm₁
  obtain ⟨haccepted, hlen₁, hidle⟩ := hm₁
  obtain ⟨m, hrun, hm⟩ := Option.map_eq_some_iff.mp hresult
  obtain ⟨hlen, hret⟩ := Prod.mk.inj hm
  have hone : oneByOne (fun _ => []) (Machine.initial .initial)
    (twoMessages ++ .call (.getMessages 1) :: reading order) = true := rfl
  have hturn : InTurn (fun _ => []) (twoMessages ++ .call (.getMessages 1) :: reading order) m 1 :=
    .of_oneByOne hone hrun
  rw [run_append, hrun₁, Option.bind_some] at hrun
  exact ⟨m₁, m, hrun₁, haccepted, hlen₁,
    .of_idle hidle hrun (by rw [hlen, hlen₁]) (by rw [hlen₁, hret]), hturn⟩

/-- The rows of the query come in the reverse order. -/
theorem transcript_reversed :
    ∃ (m₁ m : StorageMachine) (result : List MessageToRecieve),
      run (Machine.step (storageBody fun _ => [])) (Machine.initial .initial) twoMessages =
        some m₁ ∧
      ReadsAfter (fun _ => []) m₁ 1 (reading ⟨fun _ => Fin.revPerm⟩) m result ∧
      InTurn (fun _ => []) (twoMessages ++ .call (.getMessages 1) ::
        reading ⟨fun _ => Fin.revPerm⟩) m 1 ∧
      m₁.accepted 1 = [(1, "m"), (2, "n")] ∧
      result = [{ senderId := 2, text := "n" }, { senderId := 1, text := "m" }] ∧
      result ≠ (m₁.accepted 1).map asMessage := by
  obtain ⟨m₁, m, hrun, haccepted, -, hread, hturn⟩ := exists_twoMessages ⟨fun _ => Fin.revPerm⟩
    [{ senderId := 2, text := "n" }, { senderId := 1, text := "m" }] rfl
  refine ⟨m₁, m, _, hrun, hread, hturn, haccepted, rfl, ?_⟩
  rw [haccepted]
  decide

/-- The rows of the query come as they are stored. -/
theorem transcript_stored :
    ∃ (m₁ m : StorageMachine) (result : List MessageToRecieve),
      run (Machine.step (storageBody fun _ => [])) (Machine.initial .initial) twoMessages =
        some m₁ ∧
      ReadsAfter (fun _ => []) m₁ 1 (reading .stored) m result ∧
      (result = (m₁.accepted 1).map asMessage ↔
        m₁.accepted 1 = [] ∨
        Calm (3 + conversions (m₁.accepted 1)) (endings (reading .stored) m₁.txns.length) ∧
          ∀ order, endings (reading .stored) m₁.txns.length 1 = .proceed order →
            order.arrange (m₁.accepted 1) = m₁.accepted 1) := by
  obtain ⟨m₁, m, hrun, -, -, hread, hturn⟩ := exists_twoMessages .stored
    [{ senderId := 1, text := "m" }, { senderId := 2, text := "n" }] rfl
  exact ⟨m₁, m, _, hrun, hread, transcript_iff hrun hread hturn⟩

end StorageMachine

end Elegram
