import ListServer.Clocks
import ListServer.StoredCars
import ListServer.Lib.Difference

namespace ListServer.Divergence

open Lib.CTypes Lib.Difference CarData CarList Message Skeleton ClientThread Forwarding Clocks
open ClientStub StoredCars

def edit (t : AnoAtual) (msg : MessageT) : Edit CString :=
  if msg.opcode = opAdd then (accepted t msg).elim .keep fun car => .insert car.modelo
  else if msg.opcode = opDel then (target msg).elim .keep .erase
  else .keep

/-- A request to one of the servers, with the fate of the exchanges between
server `j` and server `j + 1`. -/
structure Op where
  msg : MessageT
  server : Nat
  links : Nat → Exchange

/-- The servers from the one on that gets the request. -/
def handle (op : Op) : List Replica → List Replica
  | [] => []
  | s :: rest =>
    if needsForward op.msg then
      servers (clientThread op.msg (fun j => op.links (op.server + j)) s rest)
    else execute op.msg s :: rest

def step (ss : List Replica) (op : Op) : List Replica :=
  ss.take op.server ++ handle op (ss.drop op.server)

def runOps (ss : List Replica) (ops : List Op) : List Replica := ops.foldl step ss

/-- Server `i` of `n` is reached by the forwards and its own one succeeds. -/
def Executes (n : Nat) (links : Nat → Exchange) (i : Nat) : Prop :=
  (∀ k < i, links k ≠ .lost) ∧ (i + 1 < n → links i = .ok)

instance (n : Nat) (links : Nat → Exchange) (i : Nat) : Decidable (Executes n links i) :=
  inferInstanceAs (Decidable ((∀ k < i, links k ≠ .lost) ∧ (i + 1 < n → links i = .ok)))

def Hit (n : Nat) (op : Op) (i : Nat) : Prop :=
  if needsForward op.msg then
    op.server ≤ i ∧ Executes (n - op.server) (fun j => op.links (op.server + j)) (i - op.server)
  else i = op.server

instance (n : Nat) (op : Op) (i : Nat) : Decidable (Hit n op i) := by
  unfold Hit
  infer_instance

section Step

variable {msg : MessageT} {links : Nat → Exchange} {n i : Nat}

theorem executes_succ : Executes (n + 1) links (i + 1) ↔
    links 0 ≠ .lost ∧ Executes n (fun j => links (j + 1)) i := by
  rw [Executes, Executes, Nat.add_lt_add_iff_right]
  constructor
  · rintro ⟨hreached, hown⟩
    exact ⟨hreached 0 (Nat.succ_pos i),
      fun k hk => hreached (k + 1) (Nat.succ_lt_succ hk), hown⟩
  · rintro ⟨hzero, hreached, hown⟩
    refine ⟨fun k hk => ?_, hown⟩
    cases k with
    | zero => exact hzero
    | succ k => exact hreached k (Nat.lt_of_succ_lt_succ hk)

theorem finish_list (msg : MessageT) (s : Replica) (fwdRc : Int) (below : List Replica)
    (executed : List Nat) : (finish msg s fwdRc below executed).server =
      if fwdRc = 0 ∨ fwdRc = -2 then execute msg s else s := by
  rw [finish]
  simp only [afterForward_list]
  split <;> rfl

/-- Each server executes the request once if it is reached and its own exchange
succeeds, and not at all otherwise. -/
theorem servers_clientThread (msg : MessageT) (links : Nat → Exchange) (s : Replica)
    (rest : List Replica) (i : Nat) :
    (servers (clientThread msg links s rest))[i]? = ((s :: rest)[i]?).map fun u =>
      if Executes (rest.length + 1) links i then execute msg u else u := by
  induction rest generalizing s links i with
  | nil =>
    cases i with
    | zero => simp [servers, clientThread, finish_list, Executes, zooForwardToSuccessor]
    | succ i => rfl
  | cons u rest ih =>
    have hrec := ih (fun j => links (j + 1)) u
    cases hlink : links 0 with
    | ok =>
      cases i with
      | zero =>
        simp [servers, clientThread, hlink, finish_list, Executes, zooForwardToSuccessor]
      | succ i =>
        have hsucc : Executes (rest.length + 1 + 1) links (i + 1) ↔ _ := executes_succ
        simp [hlink] at hsucc
        simpa [servers, clientThread, hlink, finish, hsucc] using hrec i
    | lost =>
      cases i with
      | zero =>
        simp [servers, clientThread, hlink, finish_list, Executes, zooForwardToSuccessor]
      | succ i =>
        have hsucc : ¬ Executes (rest.length + 1 + 1) links (i + 1) := fun h =>
          (executes_succ.mp h).1 hlink
        simp [servers, clientThread, hlink, finish, hsucc]
    | replyLost =>
      cases i with
      | zero =>
        simp [servers, clientThread, hlink, finish_list, Executes, zooForwardToSuccessor]
      | succ i =>
        have hsucc : Executes (rest.length + 1 + 1) links (i + 1) ↔ _ := executes_succ
        simp [hlink] at hsucc
        simpa [servers, clientThread, hlink, finish, hsucc] using hrec i

theorem length_servers (msg : MessageT) (links : Nat → Exchange) (s : Replica)
    (rest : List Replica) : (servers (clientThread msg links s rest)).length = rest.length + 1 :=
  congrArg (· + 1) (length_below msg links s rest)

theorem step_getElem (ss : List Replica) (op : Op) (i : Nat) :
    (step ss op)[i]? = ss[i]?.map fun u => if Hit ss.length op i then execute op.msg u else u := by
  by_cases hserver : op.server < ss.length
  · have hsplit : ss = ss.take op.server ++ ss[op.server] :: ss.drop (op.server + 1) := by simp
    have hdrop : ss.drop op.server = ss[op.server] :: ss.drop (op.server + 1) :=
      List.drop_eq_getElem_cons hserver
    have hlen : (ss.take op.server).length = op.server := List.length_take_of_le hserver.le
    have hrest : (ss.drop (op.server + 1)).length + 1 = ss.length - op.server := by
      rw [List.length_drop]
      omega
    have hget : ss[i]? = (ss.take op.server ++ ss[op.server] :: ss.drop (op.server + 1))[i]? :=
      congrArg (·[i]?) hsplit
    rw [hget, step, hdrop, handle]
    by_cases hi : i < op.server
    · have hhit : ¬ Hit ss.length op i := by
        rw [Hit]
        split <;> omega
      rw [List.getElem?_append_left (hlen.symm ▸ hi), List.getElem?_append_left (hlen.symm ▸ hi)]
      simp [hhit]
    · obtain ⟨k, rfl⟩ := Nat.exists_eq_add_of_le (Nat.le_of_not_lt hi)
      rw [List.getElem?_append_right (by omega), List.getElem?_append_right (by omega), hlen,
        Nat.add_sub_cancel_left]
      cases hw : needsForward op.msg with
      | true =>
        simp only [if_true]
        rw [servers_clientThread, hrest]
        simp [Hit, hw]
      | false =>
        simp only [Bool.false_eq_true, if_false]
        cases k with
        | zero => simp only [List.getElem?_cons_zero, Option.map_some, Hit, hw, Nat.add_zero,
            Bool.false_eq_true, if_false, if_true]
        | succ k => simp only [List.getElem?_cons_succ, Hit, hw, Bool.false_eq_true, if_false,
            Nat.add_eq_left, Nat.succ_ne_zero, Option.map_id']
  · have hdrop : ss.drop op.server = [] := List.drop_of_length_le (Nat.le_of_not_lt hserver)
    have htake : ss.take op.server = ss := List.take_of_length_le (Nat.le_of_not_lt hserver)
    rw [step, hdrop, htake, handle, List.append_nil]
    cases hi : ss[i]? with
    | none => rfl
    | some u =>
      obtain ⟨hlt, -⟩ := List.getElem?_eq_some_iff.mp hi
      have hhit : ¬ Hit ss.length op i := by
        rw [Hit]
        split <;> omega
      rw [Option.map_some, if_neg hhit]

end Step

section Models

variable {msg : MessageT} {t : AnoAtual}

theorem edit_read (h : needsForward msg = false) (t : AnoAtual) : edit t msg = .keep := by
  rw [edit, if_neg (not_add h), if_neg (not_del h)]

theorem models_after (t : AnoAtual) (msg : MessageT) (list : ListT) :
    models (after t msg list) = (edit t msg).apply (models list) := by
  by_cases ha : msg.opcode = opAdd
  · rw [edit, if_pos ha, models_eq_map, cars_after_add ha, Multiset.map_add, ← models_eq_map]
    cases accepted t msg with
    | none => simp [Edit.apply]
    | some car => simp [Edit.apply, ← Multiset.singleton_add, add_comm]
  by_cases hd : msg.opcode = opDel
  · rw [edit, if_neg ha, if_pos hd, after_del hd]
    cases target msg with
    | none => rfl
    | some m =>
      show models (listRemoveByModel list (some m)).2 = (models list).erase m
      rw [listRemoveByModel]
      cases hu : unlink m list.head with
      | none =>
        have hm : m ∉ models list := unlink_eq_none.mp hu
        exact (Multiset.erase_of_notMem hm).symm
      | some head => exact congrArg Multiset.ofList (unlink_models hu)
  · rw [edit, if_neg ha, if_neg hd, models_eq_map, cars_after_of_not_write ha hd, ← models_eq_map]
    rfl

theorem edit_or (t t' : AnoAtual) (msg : MessageT) :
    edit t msg = edit t' msg ∨ edit t msg = .keep ∨ edit t' msg = .keep := by
  rw [edit, edit]
  split
  next =>
    cases h : accepted t msg with
    | none => exact .inr (.inl rfl)
    | some car =>
      cases h' : accepted t' msg with
      | none => exact .inr (.inr rfl)
      | some car' =>
        obtain ⟨hdata, -⟩ := Skeleton.accepted_eq_some.mp h
        obtain ⟨hdata', -⟩ := Skeleton.accepted_eq_some.mp h'
        obtain rfl := dataToProtobuf_injective (Option.some.inj (hdata.symm.trans hdata'))
        exact .inl rfl
  next => exact .inl rfl

def editAt (n i : Nat) (t : AnoAtual) (op : Op) : Edit CString :=
  if Hit n op i then edit t op.msg else .keep

theorem editAt_or (n i j : Nat) (t t' : AnoAtual) (op : Op) :
    editAt n i t op = editAt n j t' op ∨ editAt n i t op = .keep ∨ editAt n j t' op = .keep := by
  rw [editAt, editAt]
  split
  next =>
    split
    next => exact edit_or t t' op.msg
    next => exact .inr (.inr rfl)
  next => exact .inr (.inl rfl)

end Models

section Run

variable {ss : List Replica} {u : Replica} {i : Nat}

theorem length_step (ss : List Replica) (op : Op) : (step ss op).length = ss.length := by
  have hhandle : ∀ rest, (handle op rest).length = rest.length := by
    rintro (_ | ⟨s, rest⟩)
    · rfl
    · rw [handle]
      split
      · exact length_servers _ _ s rest
      · rfl
  rw [step, List.length_append, hhandle, ← List.length_append, List.take_append_drop]

theorem runOps_getElem (hu : ss[i]? = some u) (ops : List Op) :
    ∃ u', (runOps ss ops)[i]? = some u' ∧
      models u'.list = applyAll (ops.map (editAt ss.length i u.ano)) (models u.list) := by
  induction ops generalizing ss u with
  | nil => exact ⟨u, hu, rfl⟩
  | cons op ops ih =>
    have hstep := step_getElem ss op i
    rw [hu, Option.map_some] at hstep
    obtain ⟨u', hrun, hmodels⟩ := ih hstep
    refine ⟨u', hrun, hmodels.trans ?_⟩
    rw [length_step, List.map_cons, applyAll, applyAll, List.foldl_cons]
    by_cases hit : Hit ss.length op i
    · rw [if_pos hit, editAt, if_pos hit, execute, models_after]
    · rw [if_neg hit, editAt, if_neg hit, Edit.apply]

end Run

/-- A request that one of two servers, of which server `i` is the first, may
execute without the other: it enters between them, an exchange between the
first one and the one behind the second fails, or only one of their clocks
accepts the car. -/
def Uneven (n i j : Nat) (t t' : AnoAtual) (op : Op) : Prop :=
  needsForward op.msg = true ∧ op.server ≤ j ∧
    (i < op.server ∨ (∃ k < j + 1, i ≤ k ∧ k + 1 < n ∧ op.links k ≠ .ok) ∨
      edit t op.msg ≠ edit t' op.msg)

instance (n i j : Nat) (t t' : AnoAtual) : DecidablePred (Uneven n i j t t') := fun op =>
  inferInstanceAs (Decidable (needsForward op.msg = true ∧ op.server ≤ j ∧
    (i < op.server ∨ (∃ k < j + 1, i ≤ k ∧ k + 1 < n ∧ op.links k ≠ .ok) ∨
      edit t op.msg ≠ edit t' op.msg)))

theorem editAt_eq {n i j : Nat} {t t' : AnoAtual} {op : Op} (hij : i < j) (hj : j < n)
    (h : ¬ Uneven n i j t t' op) : editAt n i t op = editAt n j t' op := by
  cases hw : needsForward op.msg with
  | false =>
    have hkeep : ∀ k t, editAt n k t op = .keep := fun k t => by
      rw [editAt, edit_read hw, ite_self]
    rw [hkeep, hkeep]
  | true =>
    rw [editAt, editAt]
    by_cases hserver : op.server ≤ j
    · have hodd := not_or.mp (fun he => h ⟨hw, hserver, he⟩)
      obtain ⟨hfrom, hrest⟩ := hodd
      obtain ⟨hlinks, hedit⟩ := not_or.mp hrest
      have hok : ∀ k, i ≤ k → k ≤ j → k + 1 < n → op.links k = .ok := fun k hik hkj hkn => by
        by_contra hk
        exact hlinks ⟨k, by omega, hik, hkn, hk⟩
      have hhit : Hit n op i ↔ Hit n op j := by
        simp only [Hit, hw, if_true, Executes]
        constructor
        · rintro ⟨hle, hreached, -⟩
          refine ⟨hserver, fun k hk => ?_, fun hlast => hok _ (by omega) (by omega) (by omega)⟩
          by_cases hki : k < i - op.server
          · exact hreached k hki
          · rw [hok (op.server + k) (by omega) (by omega) (by omega)]
            exact nofun
        · rintro ⟨-, hreached, -⟩
          exact ⟨by omega, fun k hk => hreached k (by omega),
            fun hlast => hok _ (by omega) (by omega) (by omega)⟩
      rw [not_not.mp hedit]
      exact if_congr hhit rfl rfl
    · have hnot : ∀ k, k ≤ j → ¬ Hit n op k := fun k hk hhit => by
        rw [Hit, if_pos hw] at hhit
        omega
      rw [if_neg (hnot i hij.le), if_neg (hnot j (le_refl j))]

/-- However requests are lost on their way along the chain, the lists of two
servers come to differ in at most as many models as there were requests that
one of them may have executed without the other. -/
theorem divergence_le (ss : List Replica) (ops : List Op) (i j : Nat) (u v : Replica) (hij : i < j)
    (hu : ss[i]? = some u) (hv : ss[j]? = some v) :
    ∃ u' v', (runOps ss ops)[i]? = some u' ∧ (runOps ss ops)[j]? = some v' ∧
      distance (models u'.list) (models v'.list) ≤ distance (models u.list) (models v.list) +
        ops.countP fun op => decide (Uneven ss.length i j u.ano v.ano op) := by
  obtain ⟨u', hu', hmodels⟩ := runOps_getElem hu ops
  obtain ⟨v', hv', hmodels'⟩ := runOps_getElem hv ops
  obtain ⟨hj, -⟩ := List.getElem?_eq_some_iff.mp hv
  refine ⟨u', v', hu', hv', ?_⟩
  rw [hmodels, hmodels']
  refine (distance_applyAll _ _ (fun op => editAt_or _ _ _ _ _ op) ops _ _).trans ?_
  refine Nat.add_le_add_left (List.countP_mono_left fun op _ hop => ?_) _
  by_contra hnot
  exact of_decide_eq_true hop (editAt_eq hij hj fun hodd => hnot (decide_eq_true hodd))

/-- An addition that all servers execute, and one whose reply to the head is lost. -/
def lostReply : List Op :=
  [⟨toyotaRequest 2020, 0, fun _ => .ok⟩,
    ⟨toyotaRequest 2021, 0, fun j => if j = 0 then .replyLost else .ok⟩]

theorem divergence_le_lostReply :
    ∃ u v, (runOps (chain listCreate [2026, 2026, 2026]) lostReply)[0]? = some u ∧
      (runOps (chain listCreate [2026, 2026, 2026]) lostReply)[1]? = some v ∧
        (u.list.size = 1 ∧ v.list.size = 2) ∧ distance (models u.list) (models v.list) ≤ 1 := by
  let servers := chain listCreate [2026, 2026, 2026]
  obtain ⟨u, v, hu, hv, hle⟩ := divergence_le servers lostReply 0 1 _ _ (by decide) rfl rfl
  have hsizes : (runOps servers lostReply).map (fun s => s.list.size) = ([1, 2, 2] : List Int) := by
    decide
  have hsize : ∀ (k : Nat) (w : Replica), (runOps servers lostReply)[k]? = some w →
      ([1, 2, 2] : List Int)[k]? = some w.list.size := by
    intro k w hw
    rw [← hsizes, List.getElem?_map, hw]
    rfl
  exact ⟨u, v, hu, hv, ⟨(Option.some.inj (hsize 0 u hu)).symm,
    (Option.some.inj (hsize 1 v hv)).symm⟩, hle.trans (by decide)⟩

end ListServer.Divergence
