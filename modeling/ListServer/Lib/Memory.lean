import ListServer.Lib.Loop
import ListServer.Lib.Pointer
import Mathlib.Data.List.Nodup
import Mathlib.Logic.Function.Basic

namespace ListServer.Lib.Memory

open Pointer Loop

abbrev Heap (α : Type) := Nat → Option α

variable {α β γ : Type}

def load (h : Heap α) (p : Option Nat) : Except Fault α :=
  (deref p).bind fun a => (h a).elim (.error .bounds) .ok

def store (h : Heap α) (a : Nat) (x : α) : Heap α := Function.update h a (some x)

def modify (h : Heap α) (p : Option Nat) (f : α → α) : Except Fault (Heap α) :=
  (deref p).bind fun a => (load h (some a)).map fun x => store h a (f x)

/-- `free` does nothing with NULL. -/
def free (h : Heap α) : Option Nat → Except Fault (Heap α)
  | none => .ok h
  | some a => (load h (some a)).map fun _ => Function.update h a none

/-- `malloc` gives the proposed place, if there is one and it is free, or NULL. -/
def malloc (h : Heap α) (place : Option Nat) : Option Nat := place.filter fun a => (h a).isNone

/-- A program that may run into a fault, or may not end within the rounds that
its loops are given. -/
abbrev Prog (α : Type) := ExceptT Fault Option α

def access (r : Except Fault α) : Prog α := ExceptT.mk (some r)

theorem gives_bind {f : Nat → Prog α} {g : Nat → α → Prog β} {a : α} {r : Except Fault β}
    (hf : Gives (fun n => (f n).run) (.ok a)) (hg : Gives (fun n => (g n a).run) r) :
    Gives (fun n => (f n >>= g n).run) r := by
  refine Gives.bind (g := fun n => ExceptT.bindCont (g n)) hf ?_
  exact hg

theorem gives_access {r : Except Fault α} {a : α} (h : r = .ok a) :
    Gives (fun _ => (access r).run) (.ok a) := h ▸ gives_some _

theorem load_some {h : Heap α} {a : Nat} {x : α} (ha : h a = some x) : load h (some a) = .ok x := by
  simp [load, deref, Except.bind, ha]

theorem modify_some {h : Heap α} {a : Nat} {x : α} (ha : h a = some x) (f : α → α) :
    modify h (some a) f = .ok (store h a (f x)) := by
  simp [modify, deref, Except.bind, load_some ha, Except.map]

theorem free_some {h : Heap α} {a : Nat} {x : α} (ha : h a = some x) :
    free h (some a) = .ok (Function.update h a none) := by
  rw [free, load_some ha]
  rfl

theorem malloc_eq_some {h : Heap α} {place : Option Nat} {a : Nat} (ha : malloc h place = some a) :
    h a = none := by
  have hfree := (Option.filter_eq_some_iff.mp ha).2
  exact Option.isNone_iff_eq_none.mp hfree

@[simp] theorem store_self (h : Heap α) (a : Nat) (x : α) : store h a x a = some x :=
  Function.update_self a _ h

theorem store_of_ne {h : Heap α} {a b : Nat} (hb : b ≠ a) (x : α) : store h a x b = h b :=
  Function.update_of_ne hb _ h

structure Node (β : Type) where
  data : β
  next : Option Nat
deriving DecidableEq

/-- The nodes from one pointer to another, with their addresses and data. -/
def Seg (h : Heap (Node β)) : Option Nat → List (Nat × β) → Option Nat → Prop
  | p, [], q => p = q
  | p, (a, d) :: cells, q => p = some a ∧ ∃ next, h a = some ⟨d, next⟩ ∧ Seg h next cells q

section Seg

variable {h h' : Heap (Node β)} {p q : Option Nat} {cells cells' : List (Nat × β)}

theorem seg_append : Seg h p (cells ++ cells') q ↔ ∃ r, Seg h p cells r ∧ Seg h r cells' q := by
  induction cells generalizing p with
  | nil => exact ⟨fun hs => ⟨p, rfl, hs⟩, fun ⟨r, hp, hs⟩ => hp ▸ hs⟩
  | cons c cells ih =>
    constructor
    · rintro ⟨hp, next, hc, hs⟩
      obtain ⟨r, hfirst, hrest⟩ := ih.mp hs
      exact ⟨r, ⟨hp, next, hc, hfirst⟩, hrest⟩
    · rintro ⟨r, ⟨hp, next, hc, hfirst⟩, hrest⟩
      exact ⟨hp, next, hc, ih.mpr ⟨r, hfirst, hrest⟩⟩

theorem Seg.congr (hs : Seg h p cells q) (heq : ∀ c ∈ cells, h' c.1 = h c.1) :
    Seg h' p cells q := by
  induction cells generalizing p with
  | nil => exact hs
  | cons c cells ih =>
    obtain ⟨hp, next, hc, hrest⟩ := hs
    have hhead := heq c List.mem_cons_self
    exact ⟨hp, next, hhead.trans hc, ih hrest fun d hd => heq d (List.mem_cons_of_mem c hd)⟩

theorem Seg.mem (hs : Seg h p cells q) {c : Nat × β} (hc : c ∈ cells) :
    ∃ next, h c.1 = some ⟨c.2, next⟩ := by
  induction cells generalizing p with
  | nil => cases hc
  | cons d cells ih =>
    obtain ⟨-, next, hd, hrest⟩ := hs
    obtain rfl | hc := List.mem_cons.mp hc
    · exact ⟨next, hd⟩
    · exact ih hrest hc

theorem Seg.ne_of_free (hs : Seg h p cells q) {a : Nat} (ha : h a = none) {c : Nat × β}
    (hc : c ∈ cells) : c.1 ≠ a := by
  rintro rfl
  obtain ⟨next, hnode⟩ := hs.mem hc
  rw [ha] at hnode
  cases hnode

/-- From one pointer there is one way to NULL. -/
theorem Seg.unique (hs : Seg h p cells none) (hs' : Seg h p cells' none) : cells = cells' := by
  induction cells generalizing p cells' with
  | nil =>
    cases cells' with
    | nil => rfl
    | cons c cells' => exact absurd (hs.symm.trans hs'.1) (by simp)
  | cons c cells ih =>
    obtain ⟨rfl, next, hc, hrest⟩ := hs
    cases cells' with
    | nil => cases hs'
    | cons c' cells' =>
      obtain ⟨hp, next', hc', hrest'⟩ := hs'
      have ha : c.1 = c'.1 := Option.some.inj hp
      rw [← ha, hc] at hc'
      obtain ⟨hd, rfl⟩ := Node.mk.inj (Option.some.inj hc')
      rw [Prod.ext ha hd, ih hrest hrest']

/-- A chain that ends in NULL has no cycle. -/
theorem Seg.nodup (hs : Seg h p cells none) : (cells.map Prod.fst).Nodup := by
  induction cells generalizing p with
  | nil => exact List.nodup_nil
  | cons c cells ih =>
    have hall := hs
    obtain ⟨rfl, next, hc, hrest⟩ := hs
    refine List.nodup_cons.mpr ⟨fun hmem => ?_, ih hrest⟩
    obtain ⟨d, hd, ha⟩ := List.mem_map.mp hmem
    obtain ⟨front, back, rfl⟩ := List.append_of_mem hd
    obtain ⟨r, -, hback⟩ := seg_append.mp hrest
    have hr : r = some c.1 := hback.1.trans (congrArg some ha)
    rw [hr] at hback
    have hlen := congrArg List.length (hall.unique hback)
    simp only [List.length_cons, List.length_append] at hlen
    omega

theorem Seg.snoc {a b : Nat} {d e : β} (hs : Seg h p (cells ++ [(a, d)]) none)
    (hb : h b = some ⟨e, none⟩) (hfresh : ∀ c ∈ cells ++ [(a, d)], c.1 ≠ b) :
    Seg (store h a ⟨d, some b⟩) p (cells ++ [(a, d)] ++ [(b, e)]) none := by
  have hnodup := hs.nodup
  obtain ⟨r, hfirst, rfl, next, ha, rfl⟩ := seg_append.mp hs
  have hne : ∀ c ∈ cells, c.1 ≠ a := fun c hc he => by
    rw [List.map_append, List.nodup_append] at hnodup
    exact hnodup.2.2 c.1 (List.mem_map_of_mem hc) a (by simp) he
  have hba : b ≠ a := (hfresh (a, d) (by simp)).symm
  rw [List.append_assoc]
  refine seg_append.mpr ⟨some a, hfirst.congr fun c hc => store_of_ne (hne c hc) _, ?_⟩
  exact ⟨rfl, some b, store_self h a _, rfl, none, by rw [store_of_ne hba, hb], rfl⟩

theorem Seg.unlink {a b : Nat} {d e : β} {next : Option Nat}
    (hs : Seg h p (cells ++ (a, d) :: (b, e) :: cells') none) (hb : h b = some ⟨e, next⟩) :
    Seg (Function.update (store h a ⟨d, next⟩) b none) p (cells ++ (a, d) :: cells') none := by
  have hnodup := hs.nodup
  rw [List.map_append, List.nodup_append] at hnodup
  obtain ⟨-, hback, hdisj⟩ := hnodup
  simp only [List.map_cons, List.nodup_cons, List.mem_cons, not_or] at hback
  obtain ⟨⟨hab, ha⟩, hb', -⟩ := hback
  obtain ⟨r, hfirst, rfl, _, -, rfl, next', hb'', hrest⟩ := seg_append.mp hs
  rw [hb] at hb''
  obtain ⟨-, rfl⟩ := Node.mk.inj (Option.some.inj hb'')
  refine seg_append.mpr ⟨some a, hfirst.congr fun c hc => ?_, rfl, next, ?_, hrest.congr fun c hc => ?_⟩
  · have hmem := List.mem_map_of_mem (f := Prod.fst) hc
    have hca : c.1 ≠ a := hdisj c.1 hmem a (by simp)
    have hcb : c.1 ≠ b := hdisj c.1 hmem b (by simp)
    rw [Function.update_of_ne hcb, store_of_ne hca]
  · rw [Function.update_of_ne hab, store_self]
  · have hmem := List.mem_map_of_mem (f := Prod.fst) hc
    have hca : c.1 ≠ a := fun he => ha (he ▸ hmem)
    have hcb : c.1 ≠ b := fun he => hb' (he ▸ hmem)
    rw [Function.update_of_ne hcb, store_of_ne hca]

theorem Seg.tail {b : Nat} {e : β} {next : Option Nat} (hs : Seg h p ((b, e) :: cells) none)
    (hb : h b = some ⟨e, next⟩) : Seg (Function.update h b none) next cells none := by
  have hnodup := hs.nodup
  rw [List.map_cons, List.nodup_cons] at hnodup
  obtain ⟨-, next', hb', hrest⟩ := hs
  rw [hb] at hb'
  obtain ⟨-, rfl⟩ := Node.mk.inj (Option.some.inj hb')
  refine hrest.congr fun c hc => ?_
  have hmem := List.mem_map_of_mem (f := Prod.fst) hc
  have hcb : c.1 ≠ b := fun he => hnodup.1 (he ▸ hmem)
  rw [Function.update_of_ne hcb]

end Seg

def lastStep (h : Heap (Node β)) (current : Option Nat) :
    Option Nat ⊕ Except Fault (Option Nat) :=
  match load h current with
  | .error e => .inr (.error e)
  | .ok node => if node.next = none then .inr (.ok current) else .inl node.next

theorem ends_last {h : Heap (Node β)} {p : Option Nat} {cells : List (Nat × β)} {c : Nat × β}
    (hs : Seg h p (cells ++ [c]) none) : Ends (lastStep h) p (.ok (some c.1)) := by
  induction cells generalizing p with
  | nil =>
    obtain ⟨rfl, next, hc, rfl⟩ := hs
    exact ends_done _ (by simp [lastStep, load_some hc])
  | cons d cells ih =>
    obtain ⟨rfl, next, hd, hrest⟩ := hs
    have hnext : next ≠ none := by
      rintro rfl
      cases cells <;> exact absurd hrest.1 (by simp)
    exact ends_next _ (by simp [lastStep, load_some hd, hnext]) (ih hrest)

/-- Write at the end of what is filled of an array with `room` places. -/
def push (room : Nat) (array : List γ) (x : γ) : Except Fault (List γ) :=
  if array.length < room then .ok (array ++ [x]) else .error .bounds

def countStep (h : Heap (Node β)) (want : β → Except Fault Bool) :
    Option Nat × Nat → (Option Nat × Nat) ⊕ Except Fault Nat
  | (none, count) => .inr (.ok count)
  | (some a, count) =>
    match (load h (some a)).bind fun node => (want node.data).map fun w => (node.next, w) with
    | .error e => .inr (.error e)
    | .ok (next, w) => .inl (next, if w then count + 1 else count)

def findStep (h : Heap (Node β)) (want : β → Except Fault Bool) :
    Option Nat → Option Nat ⊕ Except Fault (Option β)
  | none => .inr (.ok none)
  | some a =>
    match (load h (some a)).bind fun node => (want node.data).map fun w => (node, w) with
    | .error e => .inr (.error e)
    | .ok (node, w) => if w then .inr (.ok (some node.data)) else .inl node.next

/-- The walk that fills an array with what it makes of the nodes it wants, and
with a NULL at the end. It gives up where nothing can be made of a node. -/
def collectStep (h : Heap (Node β)) (room : Nat) (null : γ) (want : β → Except Fault Bool)
    (make : Nat → β → Except Fault (Option γ)) : Option Nat × List γ →
      (Option Nat × List γ) ⊕ Except Fault (Option (List γ))
  | (none, array) => .inr ((push room array null).map some)
  | (some a, array) =>
    match (load h (some a)).bind fun node => (want node.data).map fun w => (node, w) with
    | .error e => .inr (.error e)
    | .ok (node, false) => .inl (node.next, array)
    | .ok (node, true) =>
      match make array.length node.data with
      | .error e => .inr (.error e)
      | .ok none => .inr (.ok none)
      | .ok (some x) =>
        match push room array x with
        | .error e => .inr (.error e)
        | .ok array => .inl (node.next, array)

def makeAll (make : Nat → β → Option γ) : Nat → List β → Option (List γ)
  | _, [] => some []
  | i, b :: bs => (make i b).bind fun x => (makeAll make (i + 1) bs).map (x :: ·)

theorem makeAll_eq_some (make : Nat → β → Option γ) (f : β → γ) (i : Nat) {l : List β}
    (h : ∀ j < i + l.length, ∀ b ∈ l, make j b = some (f b)) :
    makeAll make i l = some (l.map f) := by
  induction l generalizing i with
  | nil => rfl
  | cons b l ih =>
    have hhead := h i (by rw [List.length_cons]; omega) b List.mem_cons_self
    have htail := ih (i + 1) fun j hj c hc =>
      h j (by rw [List.length_cons]; omega) c (List.mem_cons_of_mem b hc)
    rw [makeAll, hhead, Option.bind_some, htail]
    rfl

theorem makeAll_self (i : Nat) (l : List β) : makeAll (fun _ b => some b) i l = some l := by
  have h := makeAll_eq_some (l := l) (fun _ b => some b) id i fun _ _ _ _ => rfl
  rwa [List.map_id] at h

theorem eq_map_of_makeAll {make : Nat → β → Option γ} {f : β → γ} {i : Nat} {l : List β}
    {xs : List γ} (h : ∀ j, ∀ b ∈ l, ∀ x, make j b = some x → x = f b)
    (hxs : makeAll make i l = some xs) : xs = l.map f := by
  induction l generalizing i xs with
  | nil => exact (Option.some.inj hxs).symm
  | cons b l ih =>
    obtain ⟨x, hx, hrest⟩ := Option.bind_eq_some_iff.mp hxs
    obtain ⟨ys, hys, rfl⟩ := Option.map_eq_some_iff.mp hrest
    have hhead := h i b List.mem_cons_self x hx
    have htail := ih (fun j c hc => h j c (List.mem_cons_of_mem b hc)) hys
    rw [hhead, htail]
    rfl

section Walks

variable {h : Heap (Node β)} {p : Option Nat} {cells : List (Nat × β)}
  (want : β → Except Fault Bool) (wants : β → Bool)

theorem ends_count (hs : Seg h p cells none) (hw : ∀ c ∈ cells, want c.2 = .ok (wants c.2))
    (count : Nat) : Ends (countStep h want) (p, count)
      (.ok (count + ((cells.map Prod.snd).filter wants).length)) := by
  induction cells generalizing p count with
  | nil =>
    obtain rfl : p = none := hs
    exact ends_done _ rfl
  | cons c cells ih =>
    obtain ⟨rfl, next, hc, hrest⟩ := hs
    have hhead := hw c List.mem_cons_self
    have htail := ih hrest (fun d hd => hw d (List.mem_cons_of_mem c hd))
      (if wants c.2 then count + 1 else count)
    refine ends_next _ (t := (next, if wants c.2 then count + 1 else count)) ?_ ?_
    · simp [countStep, load_some hc, Except.bind, hhead, Except.map]
    · convert htail using 2
      rw [List.map_cons, List.filter_cons]
      cases wants c.2 <;> simp; omega

theorem ends_find (hs : Seg h p cells none) (hw : ∀ c ∈ cells, want c.2 = .ok (wants c.2)) :
    Ends (findStep h want) p (.ok ((cells.map Prod.snd).find? wants)) := by
  induction cells generalizing p with
  | nil =>
    obtain rfl : p = none := hs
    exact ends_done _ rfl
  | cons c cells ih =>
    obtain ⟨rfl, next, hc, hrest⟩ := hs
    have hhead := hw c List.mem_cons_self
    rw [List.map_cons, List.find?_cons]
    cases hwant : wants c.2 with
    | true =>
      rw [hwant] at hhead
      exact ends_done _ (by simp [findStep, load_some hc, Except.bind, hhead, Except.map])
    | false =>
      rw [hwant] at hhead
      refine ends_next _ ?_ (ih hrest fun d hd => hw d (List.mem_cons_of_mem c hd))
      simp [findStep, load_some hc, Except.bind, hhead, Except.map]

theorem ends_collect (make : Nat → β → Except Fault (Option γ)) (makes : Nat → β → Option γ)
    (room : Nat) (hs : Seg h p cells none)
    (hw : ∀ c ∈ cells, want c.2 = .ok (wants c.2))
    (hm : ∀ i, ∀ c ∈ cells, wants c.2 = true → make i c.2 = .ok (makes i c.2))
    (null : γ) (array : List γ)
    (hroom : array.length + ((cells.map Prod.snd).filter wants).length + 1 ≤ room) :
    Ends (collectStep h room null want make) (p, array)
      (.ok ((makeAll makes array.length ((cells.map Prod.snd).filter wants)).map
        fun xs => array ++ xs ++ [null])) := by
  induction cells generalizing p array with
  | nil =>
    obtain rfl : p = none := hs
    have hlt : array.length < room := Nat.lt_of_succ_le (by simpa using hroom)
    exact ends_done _ (by simp [collectStep, push, hlt, makeAll, Except.map])
  | cons c cells ih =>
    obtain ⟨rfl, next, hc, hrest⟩ := hs
    have hwc := hw c List.mem_cons_self
    have hwt : ∀ d ∈ cells, want d.2 = .ok (wants d.2) := fun d hd =>
      hw d (List.mem_cons_of_mem c hd)
    have hmt : ∀ i, ∀ d ∈ cells, wants d.2 = true → make i d.2 = .ok (makes i d.2) :=
      fun i d hd => hm i d (List.mem_cons_of_mem c hd)
    rw [List.map_cons, List.filter_cons] at hroom ⊢
    cases hwant : wants c.2 with
    | false =>
      rw [hwant] at hwc
      rw [hwant, if_neg Bool.false_ne_true] at hroom
      rw [if_neg Bool.false_ne_true]
      refine ends_next _ ?_ (ih hrest hwt hmt array hroom)
      simp [collectStep, load_some hc, Except.bind, hwc, Except.map]
    | true =>
      rw [hwant] at hwc
      rw [hwant, if_pos rfl, List.length_cons] at hroom
      rw [if_pos rfl, makeAll]
      have hmc := hm array.length c List.mem_cons_self hwant
      have hlt : array.length < room := by omega
      cases hmake : makes array.length c.2 with
      | none =>
        rw [hmake] at hmc
        exact ends_done _ (by
          simp [collectStep, load_some hc, Except.bind, hwc, hmc, Except.map])
      | some x =>
        rw [hmake] at hmc
        have htail := ih hrest hwt hmt (array ++ [x]) (by
          rw [List.length_append, List.length_singleton]
          omega)
        refine ends_next _ (t := (next, array ++ [x])) ?_ ?_
        · simp [collectStep, load_some hc, Except.bind, hwc, hmc, Except.map, push, hlt]
        · convert htail using 2
          rw [List.length_append, List.length_singleton, Option.bind_some, Option.map_map]
          congr 1
          funext xs
          simp

end Walks

end ListServer.Lib.Memory
