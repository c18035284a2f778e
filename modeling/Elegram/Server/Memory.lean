import Elegram.Server.Refinement

/-!
# What the server remembers

What users may rely on, whichever sessions they are in: a call sees what had been done or seen by
calls that had returned when it was made. The messenger that explains a run has served the first
call before the second, and it only grows in between (`Explains.exists_between`).
-/

namespace Elegram

open ReadCommitted Transition

/-- Each call leaves the messenger as it is, or adds to it. -/
theorem Messenger.Serves.le {hashPassword : String → List UInt8} {limit : Sequences}
    {M M' : PgMessenger} {op : StorageCall} {result : op.Result}
    (h : M.Serves hashPassword limit M' op result) : M ≤ M' := by
  cases op with
  | registration name email password =>
    rcases h with ⟨-, u, hu, hemail, rfl⟩ | ⟨-, rfl, -⟩
    · exact le_register hu hemail
    · exact le_rfl
  | addContact userId email =>
    rcases h with ⟨-, u, v, a, hu, hv, -, -, -, -, -, rfl⟩ | ⟨-, rfl, -⟩
    · exact le_befriend hu hv
    · exact le_rfl
  | createChat userId userName friendId =>
    rcases h with ⟨-, u, v, a, c, huv, hu, hv, hc, hnone, -, -, -, rfl⟩ | ⟨-, rfl, -⟩
    · exact le_openRoom huv hu hv hc hnone _ _
    · exact le_rfl
  | sendMessage senderId mesg =>
    rcases h with ⟨-, u, c, r, hr, hu, -, -, rfl⟩ | ⟨-, rfl, -⟩
    · exact le_post hr hu
    · exact le_rfl
  | login | getChats | getContacts | getMessages => exact h.1.ge

namespace StorageMachine

variable {hashPassword : String → List UInt8} {limit : Sequences} {m : StorageMachine}
  {es : List (Machine.Event StorageCall)} {M M' M'' : PgMessenger} {order order' : List ℕ}
  {i j : ℕ}

theorem Served.le (h : Served hashPassword limit m M order M') : M ≤ M' := by
  induction h with
  | nil M => exact le_rfl
  | cons _ _ hserves _ ih => exact hserves.le.trans ih

theorem served_append : Served hashPassword limit m M (order ++ order') M'' ↔
    ∃ M', Served hashPassword limit m M order M' ∧ Served hashPassword limit m M' order' M'' := by
  induction order generalizing M with
  | nil =>
    refine ⟨fun h => ⟨M, .nil M, h⟩, ?_⟩
    rintro ⟨M', h, h'⟩
    cases h
    exact h'
  | cons i order ih =>
    constructor
    · intro h
      cases h with
      | cons ht hret hserves h =>
        obtain ⟨M', h, h'⟩ := ih.mp h
        exact ⟨M', .cons ht hret hserves h, h'⟩
    · rintro ⟨M', h, h'⟩
      cases h with
      | cons ht hret hserves h => exact .cons ht hret hserves (ih.mpr ⟨M', h, h'⟩)

variable (hashPassword) in
/-- Two calls have returned undisturbed with these results, the first before the second was
made. -/
structure Before (es : List (Machine.Event StorageCall)) (m : StorageMachine) (i j : ℕ)
    (r r' : (op : StorageCall) × op.Result) : Prop where
  first : ∃ t, m.txns[i]? = some t ∧ t.prog = .ret r
  second : ∃ t, m.txns[j]? = some t ∧ t.prog = .ret r'
  calm : .act i .fail ∉ es ∧ .act j .fail ∉ es
  returns : Machine.ReturnsBefore (storageBody hashPassword) (Machine.initial .initial) es i j

/-- The later call finds the messenger that has served the earlier one, or a larger one. -/
theorem Explains.exists_between (h : m.Explains hashPassword es order M)
    {op op' : StorageCall} {result : op.Result} {result' : op'.Result}
    (hbefore : Before hashPassword es m i j ⟨op, result⟩ ⟨op', result'⟩) :
    ∃ M₁ M₁' M₂ M₂' : PgMessenger, M₁.Serves hashPassword m.sequences M₁' op result ∧ M₁' ≤ M₂ ∧
      M₂.Serves hashPassword m.sequences M₂' op' result' := by
  obtain ⟨⟨t, ht, hret⟩, ⟨t', ht', hret'⟩, ⟨hcalm, hcalm'⟩, hreturns⟩ := hbefore
  have hi := (h.mem i).mpr ⟨⟨t, _, ht, hret⟩, hcalm⟩
  have hj := (h.mem j).mpr ⟨⟨t', _, ht', hret'⟩, hcalm'⟩
  have hne : j ≠ i := by
    rintro rfl
    obtain ⟨_, _, _, _, _, -, -, hmem, -, hlen⟩ := hreturns
    exact absurd (List.getElem?_eq_some_iff.mp hmem).1 (Nat.not_lt.mpr hlen)
  -- the first is served first
  have hserved := h.served
  obtain ⟨before, after, rfl⟩ := List.append_of_mem hi
  have hafter : j ∈ after := by
    rcases List.mem_append.mp hj with hmem | hmem
    · exact absurd hreturns ((List.pairwise_append.mp h.realTime).2.2 j hmem i
        (List.mem_cons_self ..))
    · exact (List.mem_cons.mp hmem).resolve_left hne
  obtain ⟨between, rest, rfl⟩ := List.append_of_mem hafter
  obtain ⟨M₁, -, hserved⟩ := served_append.mp hserved
  cases hserved with
  | cons ht₁ hret₁ hserves₁ hserved =>
    obtain ⟨M₂, hbetween, hserved⟩ := served_append.mp hserved
    cases hserved with
    | cons ht₂ hret₂ hserves₂ _ =>
      cases ht.symm.trans ht₁
      cases hret.symm.trans hret₁
      cases ht'.symm.trans ht₂
      cases hret'.symm.trans hret₂
      exact ⟨M₁, _, M₂, _, hserves₁, hbetween.le, hserves₂⟩

/-- What users may rely on. -/
structure Remembers (hashPassword : String → List UInt8) (es : List (Machine.Event StorageCall))
    (m : StorageMachine) : Prop where
  /-- One can log in after a registration. -/
  account : ∀ i j name email password result,
    Before hashPassword es m i j ⟨.registration name email password, true⟩
      ⟨.login email password, result⟩ → ∃ userId, result = .ok (userId, name)
  /-- A login gives the same user as any earlier one. -/
  user : ∀ i j email password user result,
    Before hashPassword es m i j ⟨.login email password, .ok user⟩
      ⟨.login email password, result⟩ → result = .ok user
  /-- A contact that has been added is listed. -/
  contact : ∀ i j userId email response,
    Before hashPassword es m i j ⟨.addContact userId email, true⟩
      ⟨.getContacts userId, response⟩ → ∃ contact ∈ response, contact.email = email
  /-- Who is invited finds the chat, and cannot create a second one. -/
  chat : ∀ i j userId userName friendId response,
    Before hashPassword es m i j ⟨.createChat userId userName friendId, true⟩
      ⟨.getChats friendId, response⟩ → ∃ chat ∈ response, chat.title = "Chat with " ++ userName
  onlyChat : ∀ i j userId userName friendId userName' ok,
    Before hashPassword es m i j ⟨.createChat userId userName friendId, true⟩
      ⟨.createChat friendId userName' userId, ok⟩ → ok = false
  /-- A message that has been sent is read. -/
  message : ∀ i j senderId mesg response, Before hashPassword es m i j
    ⟨.sendMessage senderId mesg, true⟩ ⟨.getMessages mesg.chatId, response⟩ →
      ⟨senderId, mesg.text⟩ ∈ response
  /-- What has been read once is read again. -/
  messages : ∀ i j chatId response response', Before hashPassword es m i j
    ⟨.getMessages chatId, response⟩ ⟨.getMessages chatId, response'⟩ → response.Subperm response'

/-- **Memory.** -/
theorem remembers (hashPassword : String → List UInt8)
    (hrun : run (Machine.step (storageBody hashPassword)) (Machine.initial .initial) es = some m)
    (hothers : ∀ op, Machine.Event.call op ∈ es → InvitesOther op) (hone : m.AtMostOneChat) :
    m.Remembers hashPassword es := by
  obtain ⟨order, M, h⟩ := exists_explains hashPassword hrun hothers hone
  refine ⟨?_, ?_, ?_, ?_, ?_, ?_, ?_⟩
  · intro i j name email password result hbefore
    obtain ⟨M₁, M₁', M₂, M₂', hfirst, hle, -, hok, -⟩ := h.exists_between hbefore
    obtain ⟨-, u, hu, hemail, rfl⟩ := hfirst.resolve_right fun h => by cases h.1
    have ha := hle.account u ⟨name, email, hashPassword password⟩
      (by rw [Messenger.account_register, if_pos rfl])
    exact ⟨u.toUInt64, (hok _).mpr ⟨u, _, ha, rfl, rfl, rfl⟩⟩
  · intro i j email password user result hbefore
    obtain ⟨M₁, M₁', M₂, M₂', ⟨rfl, hfirst, -⟩, hle, -, hok, -⟩ := h.exists_between hbefore
    obtain ⟨u, a, ha, hemail, hkey, rfl⟩ := (hfirst user).mp rfl
    exact (hok _).mpr ⟨u, a, hle.account u a ha, hemail, hkey, rfl⟩
  · intro i j userId email response hbefore
    obtain ⟨M₁, M₁', M₂, M₂', hfirst, hle, -, -, hlisted⟩ := h.exists_between hbefore
    obtain ⟨-, u, v, a, hu, hv, huser, ha, hemail, huv, -, rfl⟩ :=
      hfirst.resolve_right fun h => by cases h.1
    have hadj := hle.contacts (Messenger.adj_befriend.mpr (.inr ⟨.inl ⟨rfl, rfl⟩, huv⟩))
    exact ⟨_, (hlisted _).mpr ⟨u, huser, v, a, hadj, hle.account v a ha, rfl⟩, hemail⟩
  · intro i j userId userName friendId response hbefore
    obtain ⟨M₁, M₁', M₂, M₂', hfirst, hle, -, -, hlisted⟩ := h.exists_between hbefore
    obtain ⟨-, u, v, a, c, huv, hu, hv, hc, hnone, -, hfriend, -, rfl⟩ :=
      hfirst.resolve_right fun h => by cases h.1
    obtain ⟨r, hr, hgrown⟩ := hle.room c _ (by rw [Messenger.room_openRoom, if_pos rfl])
    refine ⟨_, (hlisted _).mpr ⟨v, hfriend, c, r, hr, ?_, rfl⟩, ?_⟩
    · rw [← hgrown.members]
      exact Sym2.mem_mk_right u v
    · change r.title v = _
      rw [← hgrown.title, Room.title_fresh_right]
  · intro i j userId userName friendId userName' ok hbefore
    obtain ⟨M₁, M₁', M₂, M₂', hfirst, hle, hsecond⟩ := h.exists_between hbefore
    obtain ⟨-, u, v, a, c, huv, hu, hv, hc, hnone, huser, hfriend, -, rfl⟩ :=
      hfirst.resolve_right fun h => by cases h.1
    rcases hsecond with ⟨-, v', u', -, -, -, -, -, -, hnone', hfriend', huser', -⟩ | ⟨hok, -⟩
    · obtain rfl := PgInt.toUInt64_injective (hfriend'.trans hfriend.symm)
      obtain rfl := PgInt.toUInt64_injective (huser'.trans huser.symm)
      obtain ⟨r, hr, hgrown⟩ := hle.room c _ (by rw [Messenger.room_openRoom, if_pos rfl])
      exact absurd (hgrown.members.symm.trans Sym2.eq_swap) (hnone' c r hr)
    · exact hok
  · intro i j senderId mesg response hbefore
    obtain ⟨M₁, M₁', M₂, M₂', hfirst, hle, -, hread, -⟩ := h.exists_between hbefore
    obtain ⟨-, u, c, r, hr, hu, rfl, hc, rfl⟩ := hfirst.resolve_right fun h => by cases h.1
    refine (hread c hc).mem_iff.mpr (List.mem_map.mpr ⟨(u, mesg.text), ?_, rfl⟩)
    refine (hle.transcript c).subset ?_
    rw [Messenger.transcript_post, if_pos rfl]
    exact List.mem_append_right _ (List.mem_singleton_self _)
  · intro i j chatId response response' hbefore
    obtain ⟨M₁, M₁', M₂, M₂', ⟨rfl, hread, hnone⟩, hle, -, hread', -⟩ := h.exists_between hbefore
    by_cases hc : ∃ c : PgInt, c.toUInt64 = chatId
    · obtain ⟨c, hc⟩ := hc
      refine (hread c hc).subperm.trans ?_
      refine List.Subperm.trans ?_ (hread' c hc).symm.subperm
      exact ((hle.transcript c).map _).sublist.subperm
    · rw [hnone (not_exists.mp hc)]
      exact List.nil_subperm

/-- It remembers both registrations of a late invitation. -/
theorem remembers_lateInvitation : ∃ m : StorageMachine,
    run (Machine.step (storageBody fun _ => [])) (Machine.initial .initial) lateInvitation =
      some m ∧ m.Remembers (fun _ => []) lateInvitation := by
  obtain ⟨m, hm, hone⟩ := run_lateInvitation
  exact ⟨m, hm, remembers _ hm invitesOther_lateInvitation hone⟩

end StorageMachine

end Elegram
