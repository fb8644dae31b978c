import ListServer.Framing

namespace ListServer.EndOfFile

open Lib.Loop Framing

/-- What a call of `read` does: it has data, of which it gives no more than it is
asked for, or returns 0, or returns -1 and sets `errno`. -/
inductive Outcome
  | data (b : UInt8) (bs : List UInt8)
  | eof
  | failed (errno : Int)
deriving DecidableEq

def Outcome.size : Outcome → Nat
  | .data _ bs => bs.length + 1
  | .eof | .failed _ => 0

/-- What the successive calls do. Finitely many are interrupted, and the end of
file is permanent. -/
structure Reads where
  outcome : Nat → Outcome
  bound : Nat
  finite : ∀ i, bound ≤ i → outcome i ≠ .failed eintr
  permanent : ∀ i, outcome i = .eof → outcome (i + 1) = .eof

structure Thread where
  calls : Nat
  errno : Int

/-- `read` leaves `errno` as it is unless it fails. -/
def read (w : Reads) (s : Thread) (len : Nat) : SysResult (List UInt8) × Thread :=
  match w.outcome s.calls with
  | .data b bs =>
    let bytes := (b :: bs).take len
    (⟨bytes.length, bytes, s.errno⟩, ⟨s.calls + 1, s.errno⟩)
  | .eof => (⟨0, [], s.errno⟩, ⟨s.calls + 1, s.errno⟩)
  | .failed e => (⟨-1, [], e⟩, ⟨s.calls + 1, e⟩)

def Reads.arrived (w : Reads) : Nat → Nat
  | 0 => 0
  | i + 1 => w.arrived i + (w.outcome i).size

def EndsEarly (w : Reads) (len : Nat) : Prop := ∃ i, w.outcome i = .eof ∧ w.arrived i < len

/-- `read_all` makes finitely many calls of `read` and returns the length that it
was asked for or -1, which is -1 if the end of file comes first. -/
def Returns (w : Reads) (len : Nat) (errno : Int) : Prop :=
  ∃ ret s, Gives (fun n => readAll (read w) n len ⟨0, errno⟩) (ret, s) ∧
    (ret = len ∨ ret = -1) ∧ (EndsEarly w len → ret = -1)

/-- Where the end of file comes first, and no other error before it, `errno` is not
EINTR at the start and no call before the end is interrupted. -/
def Calm (w : Reads) (len : Nat) (errno : Int) : Prop :=
  ∀ i, w.outcome i = .eof → w.arrived i < len →
    (∀ j < i, ∀ e, w.outcome j = .failed e → e = eintr) →
    errno ≠ eintr ∧ ∀ j < i, w.outcome j ≠ .failed eintr

section Reads

variable {w : Reads} {len i j : Nat} {e : Int}

theorem arrived_mono (h : i ≤ j) : w.arrived i ≤ w.arrived j := by
  induction h with
  | refl => exact Nat.le_refl _
  | step _ ih => exact ih.trans (Nat.le_add_right _ _)

theorem eof_of_le (h : i ≤ j) (hi : w.outcome i = .eof) : w.outcome j = .eof := by
  induction h with
  | refl => exact hi
  | step _ ih => exact w.permanent _ ih

theorem arrived_of_eof (hi : w.outcome i = .eof) (k : Nat) : w.arrived k ≤ w.arrived i := by
  induction k with
  | zero => exact Nat.zero_le _
  | succ k ih =>
    by_cases hk : i ≤ k
    · rw [Reads.arrived, eof_of_le hk hi]
      exact ih
    · exact arrived_mono (by omega)

theorem arrived_data {b : UInt8} {bs : List UInt8} (ho : w.outcome i = .data b bs) :
    w.arrived (i + 1) = w.arrived i + (bs.length + 1) := by
  rw [Reads.arrived, ho, Outcome.size]

theorem arrived_failed (ho : w.outcome i = .failed e) : w.arrived (i + 1) = w.arrived i := by
  rw [Reads.arrived, ho, Outcome.size, Nat.add_zero]

theorem Reads.lt_bound (ho : w.outcome i = .failed eintr) : i < w.bound := by
  by_contra hge
  exact w.finite i (Nat.le_of_not_lt hge) ho

/-- One round, by what its call of `read` does. -/
theorem readRound_data {s : Reading Thread} {b : UInt8} {bs : List UInt8}
    (hlt : s.buf.length < len) (ho : w.outcome s.sock.calls = .data b bs) :
    readRound (read w) len s = .inl ⟨s.buf ++ (b :: bs).take (len - s.buf.length),
      ⟨s.sock.calls + 1, s.sock.errno⟩⟩ := by
  have hpos : ¬ (((b :: bs).take (len - s.buf.length)).length : Int) ≤ 0 := by
    rw [List.length_take, List.length_cons]
    omega
  simp only [readRound, if_pos hlt, read, ho, if_neg hpos]

theorem readRound_eof {s : Reading Thread} (hlt : s.buf.length < len)
    (ho : w.outcome s.sock.calls = .eof) :
    readRound (read w) len s = if s.sock.errno = eintr
      then .inl ⟨s.buf, ⟨s.sock.calls + 1, s.sock.errno⟩⟩
      else .inr (-1, ⟨s.buf, ⟨s.sock.calls + 1, s.sock.errno⟩⟩) := by
  simp only [readRound, if_pos hlt, read, ho, Int.le_refl, if_true]

theorem readRound_failed {s : Reading Thread} (hlt : s.buf.length < len)
    (ho : w.outcome s.sock.calls = .failed e) :
    readRound (read w) len s = if e = eintr then .inl ⟨s.buf, ⟨s.sock.calls + 1, e⟩⟩
      else .inr (-1, ⟨s.buf, ⟨s.sock.calls + 1, e⟩⟩) := by
  have hneg : (-1 : Int) ≤ 0 := by decide
  simp only [readRound, if_pos hlt, read, ho, if_pos hneg]

end Reads

section Loop

variable {w : Reads} {len : Nat} {errno : Int}

/-- What the loop of `read_all` keeps: every earlier failure was an interruption,
and an `errno` of EINTR is the first one or from an earlier call. -/
structure Kept (w : Reads) (len : Nat) (errno : Int) (s : Reading Thread) : Prop where
  total : s.buf.length = min len (w.arrived s.sock.calls)
  interrupted : ∀ j < s.sock.calls, ∀ e, w.outcome j = .failed e → e = eintr
  origin : s.sock.errno = eintr → errno = eintr ∨ ∃ j < s.sock.calls, w.outcome j = .failed eintr

theorem kept_start : Kept w len errno ⟨[], ⟨0, errno⟩⟩ where
  total := (Nat.min_zero len).symm
  interrupted j hj := absurd hj (Nat.not_lt_zero j)
  origin he := .inl he

theorem Kept.data {s : Reading Thread} {b : UInt8} {bs : List UInt8} (hs : Kept w len errno s)
    (hlt : s.buf.length < len) (ho : w.outcome s.sock.calls = .data b bs) :
    Kept w len errno ⟨s.buf ++ (b :: bs).take (len - s.buf.length),
      ⟨s.sock.calls + 1, s.sock.errno⟩⟩ where
  total := by
    have htotal := hs.total
    rw [List.length_append, List.length_take, List.length_cons, arrived_data ho]
    omega
  interrupted j hj e he := by
    obtain hj | rfl := Nat.lt_succ_iff_lt_or_eq.mp hj
    · exact hs.interrupted j hj e he
    · cases ho.symm.trans he
  origin he := by
    obtain hfirst | ⟨j, hj, hje⟩ := hs.origin he
    · exact .inl hfirst
    · exact .inr ⟨j, Nat.lt_succ_of_lt hj, hje⟩

theorem Kept.failed {s : Reading Thread} (hs : Kept w len errno s)
    (ho : w.outcome s.sock.calls = .failed eintr) :
    Kept w len errno ⟨s.buf, ⟨s.sock.calls + 1, eintr⟩⟩ where
  total := by
    rw [arrived_failed ho]
    exact hs.total
  interrupted j hj e he := by
    obtain hj | rfl := Nat.lt_succ_iff_lt_or_eq.mp hj
    · exact hs.interrupted j hj e he
    · exact (Outcome.failed.inj (ho.symm.trans he)).symm
  origin _ := .inr ⟨s.sock.calls, Nat.lt_succ_self _, ho⟩

/-- An end of file that comes first finds another `errno`. -/
theorem Kept.errno_ne {s : Reading Thread} (hs : Kept w len errno s) (hcalm : Calm w len errno)
    (hlt : s.buf.length < len) (ho : w.outcome s.sock.calls = .eof) : s.sock.errno ≠ eintr := by
  intro he
  have htotal := hs.total
  obtain ⟨hfirst, hnone⟩ := hcalm s.sock.calls ho (by omega) hs.interrupted
  obtain h | ⟨j, hj, hje⟩ := hs.origin he
  · exact hfirst h
  · exact hnone j hj hje

theorem Kept.not_endsEarly {s : Reading Thread} (hs : Kept w len errno s)
    (hle : len ≤ s.buf.length) : ¬ EndsEarly w len := by
  rintro ⟨i, hi, hlt⟩
  have htotal := hs.total
  have hcalls := arrived_of_eof hi s.sock.calls
  omega

theorem returns_of_calm (hcalm : Calm w len errno) : Returns w len errno := by
  suffices h : ∃ r, Ends (readRound (read w) len) ⟨[], ⟨0, errno⟩⟩ r ∧
      (r.1 = len ∨ r.1 = -1) ∧ (EndsEarly w len → r.1 = -1) by
    obtain ⟨⟨ret, s⟩, hends, hret⟩ := h
    exact ⟨ret, s, gives_of_ends _ hends, hret⟩
  -- an interruption uses up one of finitely many, data fills the buffer
  refine ends_of_measure _ (I := Kept w len errno)
    (fun s => (w.bound - s.sock.calls) + (len - s.buf.length)) (fun s hs => ?_) kept_start
  by_cases hlt : s.buf.length < len
  · cases ho : w.outcome s.sock.calls with
    | data b bs =>
      refine .inr ⟨_, readRound_data hlt ho, hs.data hlt ho, ?_⟩
      simp only [List.length_append, List.length_take, List.length_cons]
      omega
    | eof =>
      rw [readRound_eof hlt ho, if_neg (hs.errno_ne hcalm hlt ho)]
      exact .inl ⟨_, rfl, .inr rfl, fun _ => rfl⟩
    | failed e =>
      rw [readRound_failed hlt ho]
      by_cases he : e = eintr
      · subst he
        have hbound := Reads.lt_bound ho
        rw [if_pos rfl]
        refine .inr ⟨_, rfl, hs.failed ho, ?_⟩
        simp only
        omega
      · rw [if_neg he]
        exact .inl ⟨_, rfl, .inr rfl, fun _ => rfl⟩
  · have htotal := hs.total
    have hlen : s.buf.length = len := by omega
    refine .inl ⟨_, if_neg hlt, .inl (congrArg Nat.cast hlen), fun hearly => ?_⟩
    exact absurd hearly (hs.not_endsEarly (Nat.le_of_not_lt hlt))

end Loop

section Spin

variable {w : Reads} {len i : Nat} {errno : Int}

/-- At the end of file `errno` is EINTR or is going to be. -/
structure Doomed (w : Reads) (len i : Nat) (s : Reading Thread) : Prop where
  total : s.buf.length ≤ w.arrived s.sock.calls
  pending : s.sock.errno = eintr ∨ ∃ j < i, s.sock.calls ≤ j ∧ w.outcome j = .failed eintr

/-- No round of a doomed loop is the last one: the data does not suffice, and a
return value of 0 with an `errno` of EINTR counts as an interruption. -/
theorem Doomed.step {s : Reading Thread} (hi : w.outcome i = .eof) (hlt : w.arrived i < len)
    (honly : ∀ j < i, ∀ e, w.outcome j = .failed e → e = eintr) (hs : Doomed w len i s) :
    ∃ t, readRound (read w) len s = .inl t ∧ Doomed w len i t := by
  have htotal := hs.total
  have hmore : s.buf.length < len := (htotal.trans (arrived_of_eof hi _)).trans_lt hlt
  cases ho : w.outcome s.sock.calls with
  | data b bs =>
    refine ⟨_, readRound_data hmore ho, ?_, ?_⟩
    · rw [List.length_append, List.length_take, List.length_cons, arrived_data ho]
      omega
    · obtain he | ⟨j, hj, hle, hje⟩ := hs.pending
      · exact .inl he
      · have hne : s.sock.calls ≠ j := by
          rintro rfl
          cases ho.symm.trans hje
        exact .inr ⟨j, hj, by simp only; omega, hje⟩
  | eof =>
    have he : s.sock.errno = eintr := by
      obtain he | ⟨j, -, hle, hje⟩ := hs.pending
      · exact he
      · cases (eof_of_le hle ho).symm.trans hje
    rw [readRound_eof hmore ho, if_pos he]
    exact ⟨_, rfl, htotal.trans (Nat.le_add_right _ _), .inl he⟩
  | failed e =>
    have hbefore : s.sock.calls < i := by
      by_contra hge
      cases (eof_of_le (Nat.le_of_not_lt hge) hi).symm.trans ho
    have he := honly s.sock.calls hbefore e ho
    rw [readRound_failed hmore ho, if_pos he]
    exact ⟨_, rfl, htotal.trans (Nat.le_add_right _ _), .inl he⟩

/-- Where the end of file comes after an interruption, `read_all` never ends. -/
theorem readAll_eq_none (h : ¬ Calm w len errno) (n : Nat) :
    readAll (read w) n len ⟨0, errno⟩ = none := by
  simp only [Calm, not_forall] at h
  obtain ⟨i, hi, hlt, honly, hearlier⟩ := h
  refine loop_eq_none _ (I := Doomed w len i) (fun s hs => hs.step hi hlt honly)
    ⟨Nat.le_refl _, ?_⟩ n
  by_cases he : errno = eintr
  · exact .inl he
  · refine .inr ?_
    by_contra hnone
    exact hearlier ⟨he, fun j hj hje => hnone ⟨j, hj, Nat.zero_le _, hje⟩⟩

/-- The thread of such a connection never gets back from `network_receive`. -/
theorem networkReceive_eq_none {M : Type} (codec : Codec M) (h : ¬ Calm w 2 errno) (n : Nat) :
    networkReceive codec (read w) n ⟨0, errno⟩ = none := by
  rw [networkReceive, readAll_eq_none h n]
  rfl

end Spin

theorem not_returns {w : Reads} {len : Nat} {errno : Int} (h : ¬ Calm w len errno) :
    ¬ Returns w len errno := by
  rintro ⟨ret, s, ⟨n, hn⟩, -⟩
  have hspin := readAll_eq_none h n
  cases hspin.symm.trans (hn n (Nat.le_refl n))

/-- `read_all` ends as it should exactly if an end of file that comes first finds
another `errno` than EINTR. -/
theorem returns_iff (w : Reads) (len : Nat) (errno : Int) :
    Returns w len errno ↔ Calm w len errno := by
  constructor
  · intro h
    by_contra hcalm
    exact not_returns hcalm h
  · exact returns_of_calm

def interrupted : Reads where
  outcome
    | 0 => .failed eintr
    | _ + 1 => .eof
  bound := 1
  finite
    | 0, h => absurd h (by decide)
    | _ + 1, _ => Outcome.noConfusion
  permanent
    | 0, h => Outcome.noConfusion h
    | _ + 1, _ => rfl

theorem interrupted_not_returns : ¬ Returns interrupted 2 0 := by
  refine not_returns (fun hcalm => ?_)
  have honly : ∀ j < 1, ∀ e, interrupted.outcome j = .failed e → e = eintr := by
    intro j hj e he
    obtain rfl := Nat.lt_one_iff.mp hj
    exact (Outcome.failed.inj he).symm
  exact (hcalm 1 rfl (by decide) honly).2 0 (by decide) rfl

end ListServer.EndOfFile
