import Mathlib.Data.Option.Basic

namespace ListServer.Lib.Watch

/-- A value that threads read and then act upon: what may be read while it is
`v`, how an attempt may turn out that acts on `w` while it is `v`, what the attempt
makes of a cached result, and which results fit the value. An attempt that acts on
the value as it is gives one. -/
structure Source (V W A C : Type) where
  Reads : V → W → Prop
  Allowed : V → W → A → Prop
  apply : W → A → C → C
  Good : V → C → Prop
  good_apply : ∀ v w a c, Reads v w → Allowed v w a → Good v (apply w a c)

inductive Stage (W : Type)
  | idle
  | listing
  | holding (w : W)
deriving DecidableEq

inductive Thread
  | main
  | watcher
deriving DecidableEq

/-- A reader of the value: its watch, which is set by reading and fires once, the
event that waits for its handler, its two threads and the cached result. -/
structure Reader (W C : Type) where
  watch : Bool
  pending : Bool
  stage : Thread → Stage W
  cache : C

inductive Act (W A : Type)
  | event
  | list (i : Thread) (w : W)
  | apply (i : Thread) (a : A)

variable {V W A C : Type}

def Reader.start (c : C) : Reader W C :=
  ⟨false, false, fun i => match i with
    | .main => .listing
    | .watcher => .idle, c⟩

def Reader.notify (r : Reader W C) : Reader W C :=
  { r with watch := false, pending := r.pending || r.watch }

def Reader.setStage (r : Reader W C) (i : Thread) (stage : Stage W) : Reader W C :=
  { r with stage := fun j => if j = i then stage else r.stage j }

section Step

variable (S : Source V W A C) [∀ v w, Decidable (S.Reads v w)]
  [∀ v w a, Decidable (S.Allowed v w a)]

def Reader.step (v : V) (r : Reader W C) : Act W A → Option (Reader W C)
  | .event =>
    match r.stage .watcher, r.pending with
    | .idle, true => some { r.setStage .watcher .listing with pending := false }
    | _, _ => none
  | .list i w =>
    match r.stage i with
    | .listing =>
      if S.Reads v w then some { r.setStage i (.holding w) with watch := true } else none
    | _ => none
  | .apply i a =>
    match r.stage i with
    | .holding w =>
      if S.Allowed v w a then some { r.setStage i .idle with cache := S.apply w a r.cache }
      else none
    | _ => none

end Step

variable {S : Source V W A C} {v v' : V} {r r' : Reader W C} {i : Thread}

/-- What is asked of the main thread when it acts on what it has read: the watcher
has an event to handle, or the result fits. -/
def Reader.OnTime (S : Source V W A C) (v : V) (r : Reader W C) : Act W A → Prop
  | .apply .main a => r.pending = true ∨ r.stage .watcher ≠ .idle ∨
      ∀ w, r.stage .main = .holding w → S.Good v (S.apply w a r.cache)
  | _ => True

instance [DecidableEq W] [∀ v c, Decidable (S.Good v c)] (v : V) (r : Reader W C) (a : Act W A) :
    Decidable (r.OnTime S v a) :=
  match a with
  | .apply .main a =>
    match hm : r.stage .main with
    | .holding w => decidable_of_iff (r.pending = true ∨ r.stage .watcher ≠ .idle ∨
        S.Good v (S.apply w a r.cache)) (by simp [Reader.OnTime, hm])
    | .idle | .listing => isTrue (by simp [Reader.OnTime, hm])
  | .apply .watcher _ | .event | .list _ _ => isTrue trivial

def Reader.Quiet (r : Reader W C) : Prop :=
  r.stage .main = .idle ∧ r.stage .watcher = .idle ∧ r.pending = false

instance [DecidableEq W] (r : Reader W C) : Decidable r.Quiet :=
  inferInstanceAs (Decidable (_ ∧ _ ∧ _))

/-- While the watch is set, the latest thread that has read the value has read what
it still is, and has acted upon it if it is through. -/
structure Covered (S : Source V W A C) (v : V) (r : Reader W C) : Prop where
  starting : r.stage .main = .listing →
    r.watch = false ∧ r.pending = false ∧ r.stage .watcher = .idle
  handling : r.stage .watcher = .listing → r.watch = false ∧ r.pending = false
  fired : r.stage .main ≠ .listing →
    r.watch = true ∨ r.pending = true ∨ r.stage .watcher = .listing
  set : r.watch = true → r.pending = false
  held : r.watch = true → ∀ w, r.stage .watcher = .holding w → S.Reads v w
  cared : r.watch = true → r.stage .watcher = .idle →
    (∃ w, r.stage .main = .holding w) ∨ S.Good v r.cache

theorem setStage_self (r : Reader W C) (i : Thread) (stage : Stage W) :
    (r.setStage i stage).stage i = stage := if_pos rfl

theorem setStage_ne (r : Reader W C) {j : Thread} (stage : Stage W) (hj : j ≠ i) :
    (r.setStage i stage).stage j = r.stage j := if_neg hj

theorem covered_start (S : Source V W A C) (v : V) (c : C) : Covered S v (Reader.start c) where
  starting _ := ⟨rfl, rfl, rfl⟩
  handling h := by cases h
  fired h := absurd rfl h
  set h := by cases h
  held h := by cases h
  cared h := by cases h

theorem Covered.notify (h : Covered S v r) (v' : V) : Covered S v' r.notify where
  starting hm := by
    obtain ⟨hw, hp, hi⟩ := h.starting hm
    exact ⟨rfl, by simp [Reader.notify, hw, hp], hi⟩
  handling hl := by
    obtain ⟨hw, hp⟩ := h.handling hl
    exact ⟨rfl, by simp [Reader.notify, hw, hp]⟩
  fired hm := by
    obtain hw | hp | hl := h.fired hm
    · exact .inr (.inl (by simp [Reader.notify, hw]))
    · exact .inr (.inl (by simp [Reader.notify, hp]))
    · exact .inr (.inr hl)
  set hw := by cases hw
  held hw := by cases hw
  cared hw := by cases hw

def Reader.InTurn (r : Reader W C) : Act W A → Prop
  | .event => r.stage .main = .idle
  | .list _ _ | .apply _ _ => True

/-- Until the main thread is through, the watcher has not begun, and what the main
thread has read is still so unless there is an event. -/
def Alone (S : Source V W A C) (v : V) (r : Reader W C) : Prop :=
  r.stage .main ≠ .idle → r.stage .watcher = .idle ∧
    ∀ w, r.stage .main = .holding w → r.watch = true ∧ S.Reads v w ∨ r.pending = true

theorem alone_start (S : Source V W A C) (v : V) (c : C) : Alone S v (Reader.start c) :=
  fun _ => ⟨rfl, fun _ hw => by cases hw⟩

theorem Alone.notify (h : Alone S v r) (v' : V) : Alone S v' r.notify := by
  intro hm
  obtain ⟨hidle, hread⟩ := h hm
  refine ⟨hidle, fun w hw => .inr ?_⟩
  obtain ⟨hwatch, -⟩ | hpending := hread w hw
  · simp [Reader.notify, hwatch]
  · simp [Reader.notify, hpending]

section Preservation

variable [∀ v w, Decidable (S.Reads v w)] [∀ v w a, Decidable (S.Allowed v w a)]

theorem Covered.event (h : Covered S v r) (hs : r.step S v (.event : Act W A) = some r') :
    Covered S v r' := by
  rw [Reader.step] at hs
  split at hs
  · next hidle hpending =>
    obtain rfl := Option.some.inj hs
    have hwatch : r.watch = false := by
      cases hw : r.watch with
      | false => rfl
      | true =>
        rw [h.set hw] at hpending
        cases hpending
    have hset := setStage_self r .watcher (.listing : Stage W)
    refine ⟨fun hm => ?_, fun _ => ⟨hwatch, rfl⟩, fun _ => .inr (.inr hset), fun _ => rfl,
      fun hw => ?_, fun hw => ?_⟩
    · have hstart := h.starting hm
      rw [hstart.2.1] at hpending
      cases hpending
    · rw [show r.watch = true from hw] at hwatch
      cases hwatch
    · rw [show r.watch = true from hw] at hwatch
      cases hwatch
  · cases hs

theorem Covered.list {w : W} (h : Covered S v r)
    (hs : r.step S v (.list i w : Act W A) = some r') : Covered S v r' := by
  rw [Reader.step] at hs
  split at hs
  · next hlisting =>
    obtain ⟨hreads, hsome⟩ := Option.ite_none_right_eq_some.mp hs
    obtain rfl := Option.some.inj hsome
    cases i with
    | main =>
      obtain ⟨-, hpending, hidle⟩ := h.starting hlisting
      have hmain := setStage_self r .main (.holding w)
      have hwatcher : (r.setStage .main (.holding w)).stage .watcher = .idle := hidle
      refine ⟨fun hm => ?_, fun hl => ?_, fun _ => .inl rfl, fun _ => hpending, fun _ u hu => ?_,
        fun _ _ => .inl ⟨w, hmain⟩⟩
      · cases hmain.symm.trans hm
      · cases hwatcher.symm.trans hl
      · cases hwatcher.symm.trans hu
    | watcher =>
      obtain ⟨-, hpending⟩ := h.handling hlisting
      have hwatcher := setStage_self r .watcher (.holding w)
      refine ⟨fun hm => ?_, fun hl => ?_, fun _ => .inl rfl, fun _ => hpending, fun _ u hu => ?_,
        fun _ hidle => ?_⟩
      · cases hlisting.symm.trans (h.starting hm).2.2
      · cases hwatcher.symm.trans hl
      · cases hwatcher.symm.trans hu
        exact hreads
      · cases hwatcher.symm.trans hidle
  · cases hs

theorem Covered.apply {a : A} (h : Covered S v r) (hon : r.OnTime S v (.apply i a))
    (hs : r.step S v (.apply i a : Act W A) = some r') : Covered S v r' := by
  rw [Reader.step] at hs
  split at hs
  · next w hholding =>
    obtain ⟨hallowed, hsome⟩ := Option.ite_none_right_eq_some.mp hs
    obtain rfl := Option.some.inj hsome
    have hself := setStage_self r i (.idle : Stage W)
    cases i with
    | main =>
      have hmain : r.stage .main ≠ .listing := by rw [hholding]; simp
      refine ⟨fun hm => ?_, h.handling, fun _ => h.fired hmain, h.set, h.held, fun hw hidle => ?_⟩
      · cases hself.symm.trans hm
      · obtain hpending | hbusy | hgood := hon
        · rw [h.set hw] at hpending
          cases hpending
        · exact absurd hidle hbusy
        · exact .inr (hgood w hholding)
    | watcher =>
      refine ⟨fun hm => ?_, fun hl => ?_, fun hm => ?_, h.set, fun _ u hu => ?_, fun hw _ => ?_⟩
      · cases hholding.symm.trans (h.starting hm).2.2
      · cases hself.symm.trans hl
      · obtain hw | hp | hl := h.fired hm
        · exact .inl hw
        · exact .inr (.inl hp)
        · cases hholding.symm.trans hl
      · cases hself.symm.trans hu
      · exact .inr (S.good_apply v w a r.cache (h.held hw w hholding) hallowed)
  · cases hs

theorem Alone.step {a : Act W A} (h : Alone S v r) (hturn : r.InTurn a)
    (hs : r.step S v a = some r') : Alone S v r' := by
  intro hm
  cases a with
  | event =>
    rw [Reader.step] at hs
    split at hs
    next =>
      obtain rfl := Option.some.inj hs
      exact absurd hturn hm
    next => cases hs
  | list i w =>
    rw [Reader.step] at hs
    split at hs
    next hlisting =>
      obtain ⟨hreads, hsome⟩ := Option.ite_none_right_eq_some.mp hs
      obtain rfl := Option.some.inj hsome
      cases i with
      | main =>
        obtain ⟨hidle, -⟩ := h (by rw [hlisting]; simp)
        refine ⟨hidle, fun u hu => .inl ⟨rfl, ?_⟩⟩
        cases (setStage_self r .main (.holding w)).symm.trans hu
        exact hreads
      | watcher => cases (h hm).1.symm.trans hlisting
    next => cases hs
  | apply i a =>
    rw [Reader.step] at hs
    split at hs
    next w hholding =>
      obtain ⟨-, hsome⟩ := Option.ite_none_right_eq_some.mp hs
      obtain rfl := Option.some.inj hsome
      cases i with
      | main => exact absurd (setStage_self r .main (.idle : Stage W)) hm
      | watcher => cases (h hm).1.symm.trans hholding
    next => cases hs

/-- A main thread that the watcher does not overtake is on time. -/
theorem Alone.onTime {a : Act W A} (h : Alone S v r) (hs : r.step S v a = some r') :
    r.OnTime S v a := by
  cases a with
  | event | list => trivial
  | apply i a =>
    cases i with
    | watcher => trivial
    | main =>
      rw [Reader.step] at hs
      split at hs
      next w hholding =>
        obtain ⟨hallowed, -⟩ := Option.ite_none_right_eq_some.mp hs
        obtain ⟨-, hread⟩ := h (by rw [hholding]; simp)
        obtain ⟨-, hreads⟩ | hpending := hread w hholding
        · refine .inr (.inr fun u hu => ?_)
          cases hholding.symm.trans hu
          exact S.good_apply v w a r.cache hreads hallowed
        · exact .inl hpending
      next => cases hs

theorem Covered.step {a : Act W A} (h : Covered S v r) (hon : r.OnTime S v a)
    (hs : r.step S v a = some r') : Covered S v r' := by
  cases a with
  | event => exact h.event hs
  | list i w => exact h.list hs
  | apply i a => exact h.apply hon hs

end Preservation

/-- A reader that has nothing left to do has a result that fits. -/
theorem Covered.good (h : Covered S v r) (hq : r.Quiet) : S.Good v r.cache := by
  obtain ⟨hm, hi, hp⟩ := hq
  have hwatch : r.watch = true := by
    obtain hw | hp' | hl := h.fired (by rw [hm]; simp)
    · exact hw
    · rw [hp] at hp'
      cases hp'
    · rw [hi] at hl
      cases hl
  obtain ⟨w, hw⟩ | hgood := h.cared hwatch hi
  · rw [hm] at hw
    cases hw
  · exact hgood

end ListServer.Lib.Watch
