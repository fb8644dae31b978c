import ListServer.Lib.Slots
import ListServer.Lib.Transition

namespace ListServer.ClientSlots

open Lib.Slots Lib.Transition

def numMaxClients : Nat := 6

/-- What an occupied entry of `client_list` says. An entry whose socket is -1
is `none`. -/
structure Client where
  clientSocket : Nat
  tid : Nat
deriving DecidableEq, Repr

inductive Thread
  | started (clientSocket : Nat)
  | serving (clientSocket : Nat)
deriving DecidableEq, Repr

inductive Place
  | accepting
  | accepted (clientSocket : Nat)
  | admitted (clientSocket : Nat)
  | created (clientSocket : Nat)
deriving DecidableEq, Repr

/-- The threads are given by their numbers, which may be used again after a
thread has ended. -/
structure State where
  numClients : Int
  clientList : List (Option Client)
  place : Place
  threads : Nat → Option Thread

def State.start : State := ⟨0, List.replicate numMaxClients none, .accepting, fun _ => none⟩

def State.setThread (s : State) (tid : Nat) (t : Option Thread) : State :=
  { s with threads := fun u => if u = tid then t else s.threads u }

/-- The steps of the accept loop, where `fail` is an error of `malloc` or
`pthread_create`, and those of a client thread. -/
inductive Act
  | accept (clientSocket : Nat)
  | check
  | create (tid : Nat)
  | fail
  | ready
  | register (tid : Nat)
  | deregister (tid : Nat)
deriving DecidableEq, Repr

def step (s : State) : Act → Option State
  | .accept clientSocket =>
    match s.place with
    | .accepting => some { s with place := .accepted clientSocket }
    | _ => none
  | .check =>
    match s.place with
    | .accepted clientSocket =>
      if s.numClients ≥ numMaxClients then some { s with place := .accepting }
      else some { s with place := .admitted clientSocket }
    | _ => none
  | .create tid =>
    match s.place, s.threads tid with
    | .admitted clientSocket, none =>
      some { s.setThread tid (some (.started clientSocket)) with place := .created clientSocket }
    | _, _ => none
  | .fail =>
    match s.place with
    | .admitted _ => some { s with place := .accepting }
    | _ => none
  | .ready =>
    match s.place with
    | .created _ => some { s with place := .accepting }
    | _ => none
  | .register tid =>
    match s.threads tid with
    | some (.started clientSocket) =>
      let s' := s.setThread tid (some (.serving clientSocket))
      match occupy ⟨clientSocket, tid⟩ s.clientList with
      | some slots => some { s' with numClients := s.numClients + 1, clientList := slots }
      | none => some s'
    | _ => none
  | .deregister tid =>
    match s.threads tid with
    | some (.serving clientSocket) =>
      some { s.setThread tid none with
        numClients := s.numClients - 1, clientList := vacate ⟨clientSocket, tid⟩ s.clientList }
    | _ => none

/-- What the accounting promises: the counter counts the occupied entries,
every registered thread occupies one of them, and these threads are not too
many. -/
structure Accounted (s : State) : Prop where
  counter : s.numClients = used s.clientList
  owns : ∀ tid socket, s.threads tid = some (.serving socket) →
    s.clientList.count (some ⟨socket, tid⟩) = 1
  limit : ∀ tids : List Nat, tids.Nodup →
    (∀ tid ∈ tids, ∃ socket, s.threads tid = some (.serving socket)) →
      tids.length ≤ numMaxClients

def FindsEntry (s : State) : Act → Prop
  | .register _ => none ∈ s.clientList
  | _ => True

instance (s : State) (a : Act) : Decidable (FindsEntry s a) :=
  match a with
  | .register _ => inferInstanceAs (Decidable (_ ∈ _))
  | .accept _ | .check | .create _ | .fail | .ready | .deregister _ => isTrue trivial

/-- What holds in any case: the entries belong to registered threads, one each. -/
structure Consistent (s : State) : Prop where
  length : s.clientList.length = numMaxClients
  owner : ∀ c, some c ∈ s.clientList → s.threads c.tid = some (.serving c.clientSocket)
  once : ∀ c, s.clientList.count (some c) ≤ 1

section Inversion

variable {s s' : State}

theorem setThread_threads (s : State) (tid : Nat) (t : Option Thread) (u : Nat) :
    (s.setThread tid t).threads u = if u = tid then t else s.threads u := rfl

theorem step_register {tid : Nat} : step s (.register tid) = some s' ↔
    ∃ socket, s.threads tid = some (.started socket) ∧
      ((∃ slots, occupy ⟨socket, tid⟩ s.clientList = some slots ∧
          { s.setThread tid (some (.serving socket)) with
            numClients := s.numClients + 1, clientList := slots } = s') ∨
        (occupy ⟨socket, tid⟩ s.clientList = none ∧
          s.setThread tid (some (.serving socket)) = s')) := by
  simp only [step]
  cases ht : s.threads tid with
  | none => simp
  | some t =>
    cases t with
    | serving socket => simp
    | started socket => cases ho : occupy ⟨socket, tid⟩ s.clientList <;> simp [ho]

theorem step_deregister {tid : Nat} : step s (.deregister tid) = some s' ↔
    ∃ socket, s.threads tid = some (.serving socket) ∧
      { s.setThread tid none with
        numClients := s.numClients - 1,
        clientList := vacate ⟨socket, tid⟩ s.clientList } = s' := by
  simp only [step]
  cases ht : s.threads tid with
  | none => simp
  | some t => cases t <;> simp

/-- The other steps change neither the counter nor the entries nor which
threads are registered. -/
structure Quiet (s s' : State) : Prop where
  counter : s'.numClients = s.numClients
  entries : s'.clientList = s.clientList
  serving : ∀ tid socket,
    s'.threads tid = some (.serving socket) ↔ s.threads tid = some (.serving socket)

theorem step_quiet {a : Act} (h : step s a = some s') (hr : ∀ tid, a ≠ .register tid)
    (hd : ∀ tid, a ≠ .deregister tid) : Quiet s s' := by
  cases a with
  | register tid => exact absurd rfl (hr tid)
  | deregister tid => exact absurd rfl (hd tid)
  | create tid =>
    simp only [step] at h
    split at h
    next socket _ hnone =>
      obtain rfl := Option.some.inj h
      refine ⟨rfl, rfl, fun u socket' => ?_⟩
      dsimp only
      rw [setThread_threads]
      split
      next hu => simp [hu, hnone]
      next => rfl
    next => cases h
  | check =>
    simp only [step] at h
    split at h
    · split at h <;>
      · obtain rfl := Option.some.inj h
        exact ⟨rfl, rfl, fun _ _ => Iff.rfl⟩
    · cases h
  | accept | fail | ready =>
    simp only [step] at h
    split at h
    · obtain rfl := Option.some.inj h
      exact ⟨rfl, rfl, fun _ _ => Iff.rfl⟩
    · cases h

end Inversion

theorem consistent_start : Consistent State.start := by
  have hnone : ∀ c, some c ∉ State.start.clientList := fun c hc => by
    have h := List.eq_of_mem_replicate hc
    cases h
  refine ⟨List.length_replicate, fun c hc => absurd hc (hnone c), fun c => ?_⟩
  rw [List.count_eq_zero_of_not_mem (hnone c)]
  exact Nat.zero_le 1

theorem accounted_start : Accounted State.start := by
  refine ⟨?_, fun tid socket h => ?_, fun tids _ h => ?_⟩
  · rw [State.start, used_replicate]
    rfl
  · cases h
  · cases tids with
    | nil => exact Nat.zero_le _
    | cons tid tids =>
      obtain ⟨socket, hs⟩ := h tid List.mem_cons_self
      cases hs

theorem limit_of_owns {s : State} (hlen : s.clientList.length = numMaxClients)
    (h : ∀ tid socket, s.threads tid = some (.serving socket) →
      s.clientList.count (some ⟨socket, tid⟩) = 1) {tids : List Nat} (hnodup : tids.Nodup)
    (hserving : ∀ tid ∈ tids, ∃ socket, s.threads tid = some (.serving socket)) :
    tids.length ≤ numMaxClients := by
  have hmem : ∀ tid ∈ tids, some tid ∈ s.clientList.map (Option.map Client.tid) := fun tid htid => by
    obtain ⟨socket, hs⟩ := hserving tid htid
    have hcount := h tid socket hs
    have hin : some ⟨socket, tid⟩ ∈ s.clientList := List.count_pos_iff.mp (by omega)
    exact List.mem_map.mpr ⟨_, hin, rfl⟩
  have hle := length_le_of_owners hnodup hmem
  rwa [List.length_map, hlen] at hle

theorem accounted_of_owns {s : State} (hlen : s.clientList.length = numMaxClients)
    (hcounter : s.numClients = used s.clientList)
    (howns : ∀ tid socket, s.threads tid = some (.serving socket) →
      s.clientList.count (some ⟨socket, tid⟩) = 1) : Accounted s :=
  ⟨hcounter, howns, fun _ hnodup hserving => limit_of_owns hlen howns hnodup hserving⟩

theorem client_ne {u tid socket socket' : Nat} (h : u ≠ tid) :
    ¬ (⟨socket', u⟩ : Client) = ⟨socket, tid⟩ := fun he => h (congrArg Client.tid he)

theorem mem_iff_count {c : Client} {slots : List (Option Client)} :
    some c ∈ slots ↔ 0 < slots.count (some c) := List.count_pos_iff.symm

theorem Consistent.ne_started {s : State} (h : Consistent s) {tid socket : Nat}
    (ht : s.threads tid = some (.started socket)) {c : Client} (hc : some c ∈ s.clientList) :
    c.tid ≠ tid := by
  intro he
  have hown := h.owner c hc
  rw [he, ht] at hown
  cases hown

theorem count_started {s : State} (h : Consistent s) {tid socket : Nat}
    (ht : s.threads tid = some (.started socket)) (socket' : Nat) :
    s.clientList.count (some ⟨socket', tid⟩) = 0 := by
  rw [List.count_eq_zero]
  intro hmem
  exact h.ne_started ht hmem rfl

theorem consistent_step {s s' : State} {a : Act} (h : Consistent s) (hs : step s a = some s') :
    Consistent s' := by
  cases a with
  | register tid =>
    obtain ⟨socket, ht, ⟨slots, hocc, rfl⟩ | ⟨-, rfl⟩⟩ := step_register.mp hs
    · have hcount := count_occupy hocc
      refine ⟨(length_occupy hocc).trans h.length, fun c hc => ?_, fun c => ?_⟩
      · dsimp only at hc ⊢
        rw [setThread_threads]
        rw [mem_iff_count, hcount c] at hc
        by_cases heq : c = ⟨socket, tid⟩
        · rw [heq, if_pos rfl]
        · rw [if_neg heq, Nat.add_zero, ← mem_iff_count] at hc
          rw [if_neg (h.ne_started ht hc), h.owner c hc]
      · dsimp only
        rw [hcount c]
        by_cases heq : c = ⟨socket, tid⟩
        · exact Nat.le_of_eq (by rw [heq, count_started h ht, if_pos rfl])
        · rw [if_neg heq, Nat.add_zero]
          exact h.once c
    · refine ⟨h.length, fun c hc => ?_, h.once⟩
      rw [setThread_threads, if_neg (h.ne_started ht hc), h.owner c hc]
  | deregister tid =>
    obtain ⟨socket, ht, rfl⟩ := step_deregister.mp hs
    have hcount := count_vacate (⟨socket, tid⟩ : Client)
    refine ⟨(length_vacate _ _).trans h.length, fun c hc => ?_, fun c => ?_⟩
    · dsimp only at hc ⊢
      rw [mem_iff_count, hcount c] at hc
      by_cases heq : c = ⟨socket, tid⟩
      · rw [if_pos heq] at hc
        exact absurd hc (Nat.lt_irrefl 0)
      · rw [if_neg heq, ← mem_iff_count] at hc
        have hown := h.owner c hc
        have hne : c.tid ≠ tid := fun he => by
          rw [he, ht] at hown
          obtain rfl : socket = c.clientSocket := Thread.serving.inj (Option.some.inj hown)
          exact heq (by rw [← he])
        rw [setThread_threads, if_neg hne, hown]
    · dsimp only
      rw [hcount c]
      split
      · exact Nat.zero_le 1
      · exact h.once c
  | accept | check | create | fail | ready =>
    have hq := step_quiet hs (fun _ => by simp) (fun _ => by simp)
    refine ⟨hq.entries ▸ h.length, fun c hc => ?_, fun c => ?_⟩
    · rw [hq.entries] at hc
      exact (hq.serving _ _).mpr (h.owner c hc)
    · rw [hq.entries]
      exact h.once c

/-- The accounting is kept by a registration exactly if it finds a free entry,
and by every other step. -/
theorem accounted_step {s s' : State} {a : Act} (hc : Consistent s) (h : Accounted s)
    (hs : step s a = some s') : Accounted s' ↔ FindsEntry s a := by
  have hlen := (consistent_step hc hs).length
  cases a with
  | register tid =>
    obtain ⟨socket, ht, ⟨slots, hocc, rfl⟩ | ⟨hocc, rfl⟩⟩ := step_register.mp hs
    · have hfree : none ∈ s.clientList := by
        by_contra hfull
        rw [occupy_eq_none.mpr hfull] at hocc
        cases hocc
      refine iff_of_true (accounted_of_owns hlen ?_ ?_) hfree
      · dsimp only
        rw [used_occupy hocc, h.counter]
        rfl
      · intro u socket' hu
        dsimp only at hu ⊢
        rw [setThread_threads] at hu
        rw [count_occupy hocc]
        by_cases heq : u = tid
        · rw [if_pos heq] at hu
          obtain rfl : socket = socket' := Thread.serving.inj (Option.some.inj hu)
          rw [heq, count_started hc ht, if_pos rfl]
        · rw [if_neg heq] at hu
          rw [if_neg (client_ne heq), h.owns u socket' hu]
    · have hfull := occupy_eq_none.mp hocc
      refine iff_of_false (fun hacc => ?_) hfull
      have hown := hacc.owns tid socket (by rw [setThread_threads, if_pos rfl])
      have hzero := count_started hc ht socket
      exact absurd (hzero.symm.trans hown) (by decide)
  | deregister tid =>
    obtain ⟨socket, ht, rfl⟩ := step_deregister.mp hs
    refine iff_of_true (accounted_of_owns hlen ?_ ?_) trivial
    · have hused := used_vacate (⟨socket, tid⟩ : Client) s.clientList
      rw [h.owns tid socket ht] at hused
      have hcounter := h.counter
      dsimp only
      omega
    · intro u socket' hu
      dsimp only at hu ⊢
      rw [setThread_threads] at hu
      rw [count_vacate]
      by_cases heq : u = tid
      · rw [if_pos heq] at hu
        cases hu
      · rw [if_neg heq] at hu
        rw [if_neg (client_ne heq), h.owns u socket' hu]
  | accept | check | create | fail | ready =>
    have hq := step_quiet hs (fun _ => by simp) (fun _ => by simp)
    refine iff_of_true (accounted_of_owns hlen ?_ ?_) trivial
    · rw [hq.counter, hq.entries, h.counter]
    · intro u socket hu
      rw [hq.entries]
      exact h.owns u socket ((hq.serving u socket).mp hu)

/-- The accounting holds in every state of a run exactly if every registration
of the run finds a free entry. -/
theorem accounted_iff {as : List Act} {s : State} (h : run step .start as = some s) :
    (∀ ks ms r, as = ks ++ ms → run step .start ks = some r → Accounted r) ↔
      Meets step FindsEntry .start as :=
  reached_iff_meets_of_invariant step (fun _ _ _ => consistent_step)
    (fun _ _ _ => accounted_step) consistent_start accounted_start h

/-- Three connections whose threads register late and end in another order than
they began, and a fourth that gets the socket and the entry of the second. -/
def threeClients : List Act :=
  [.accept 4, .check, .create 0, .ready, .accept 5, .check, .create 1, .register 1, .ready,
    .accept 6, .check, .fail, .accept 6, .check, .create 2, .register 0, .ready, .deregister 1,
    .register 2, .accept 5, .check, .create 1, .register 1, .deregister 0, .ready]

theorem accounted_threeClients : ∃ s, run step .start threeClients = some s ∧ s.numClients = 2 ∧
    ∀ ks ms r, threeClients = ks ++ ms → run step .start ks = some r → Accounted r :=
  ⟨_, rfl, rfl, (accounted_iff rfl).mpr (by decide)⟩

def sevenClients : List Act :=
  (List.range 7).flatMap (fun i => [.accept (i + 4), .check, .create i, .ready]) ++
    (List.range 7).map .register

theorem seven_served : ¬ ∀ ks ms r, sevenClients = ks ++ ms →
    run step .start ks = some r → Accounted r := by
  intro h
  have hacc := h sevenClients [] _ (by rw [List.append_nil]) rfl
  have hown := hacc.owns 6 10 rfl
  exact absurd hown (by decide)

end ListServer.ClientSlots
