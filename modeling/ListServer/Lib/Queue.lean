import ListServer.Lib.Memory

namespace ListServer.Lib.Queue

open Pointer Loop Memory

variable {β : Type}

/-- A chain of nodes between a pointer to its first and one to its last node. -/
structure Queued (h : Heap (Node β)) (head tail : Option Nat) (cells : List (Nat × β)) :
    Prop where
  chain : Seg h head cells none
  last : tail = cells.getLast?.map Prod.fst

section Queued

variable {h h' : Heap (Node β)} {head tail : Option Nat} {cells : List (Nat × β)} {a b : Nat}

theorem Queued.empty (h : Heap (Node β)) : Queued h none none [] := ⟨rfl, rfl⟩

theorem Queued.head_eq_none (hq : Queued h head tail cells) : head = none ↔ cells = [] := by
  cases cells with
  | nil => exact iff_of_true hq.chain rfl
  | cons c cells => simp [hq.chain.1]

theorem Queued.tail_eq_none (hq : Queued h head tail cells) : tail = none ↔ cells = [] := by
  rw [hq.last, Option.map_eq_none_iff, List.getLast?_eq_none_iff]

theorem Queued.tail_eq_some (hq : Queued h head tail cells) (ha : tail = some a) :
    ∃ front d, cells = front ++ [(a, d)] := by
  rw [hq.last] at ha
  obtain ⟨c, hc, rfl⟩ := Option.map_eq_some_iff.mp ha
  obtain ⟨front, hfront⟩ := List.getLast?_eq_some_iff.mp hc
  exact ⟨front, c.2, hfront⟩

theorem Queued.congr (hq : Queued h head tail cells)
    (heq : ∀ a ∈ cells.map Prod.fst, h' a = h a) : Queued h' head tail cells :=
  ⟨hq.chain.congr fun _ hc => heq _ (List.mem_map_of_mem hc), hq.last⟩

theorem Queued.allocated (hq : Queued h head tail cells) (ha : a ∈ cells.map Prod.fst) :
    h a ≠ none := by
  obtain ⟨c, hc, rfl⟩ := List.mem_map.mp ha
  obtain ⟨next, hnode⟩ := hq.chain.mem hc
  simp [hnode]

theorem Queued.first {d : β} (hq : Queued h head none cells) (ha : h a = some ⟨d, none⟩) :
    Queued h (some a) (some a) (cells ++ [(a, d)]) := by
  obtain rfl := hq.tail_eq_none.mp rfl
  exact ⟨⟨rfl, none, ha, rfl⟩, rfl⟩

theorem Queued.link {d : β} (hq : Queued h head (some a) cells) (hb : h b = some ⟨d, none⟩)
    (hnew : b ∉ cells.map Prod.fst) :
    ∃ node, h a = some node ∧
      Queued (store h a { node with next := some b }) head (some b) (cells ++ [(b, d)]) := by
  obtain ⟨front, e, rfl⟩ := hq.tail_eq_some rfl
  obtain ⟨next, ha⟩ := hq.chain.mem (List.mem_append_right front List.mem_cons_self)
  refine ⟨⟨e, next⟩, ha, hq.chain.snoc hb fun c hc he => hnew ?_, by simp⟩
  exact he ▸ List.mem_map_of_mem hc

/-- The first node leaves the queue, which is empty after it or keeps its last
node. -/
theorem Queued.takeFirst (hq : Queued h (some a) tail cells) :
    ∃ d next rest, cells = (a, d) :: rest ∧ h a = some ⟨d, next⟩ ∧
      Queued h next (if next = none then none else tail) rest := by
  cases cells with
  | nil => cases hq.chain
  | cons c rest =>
    obtain ⟨hc, next, hnode, hrest⟩ := hq.chain
    obtain rfl : a = c.1 := Option.some.inj hc
    refine ⟨c.2, next, rest, rfl, hnode, hrest, ?_⟩
    cases rest with
    | nil =>
      obtain rfl : next = none := hrest
      rfl
    | cons c' rest =>
      rw [if_neg (by simp [hrest.1]), hq.last, List.getLast?_cons_cons]

theorem Queued.nodup (hq : Queued h head tail cells) : (cells.map Prod.fst).Nodup :=
  hq.chain.nodup

end Queued

def freeStep : Heap (Node β) × Option Nat × List β →
    (Heap (Node β) × Option Nat × List β) ⊕ Except Fault (Heap (Node β) × List β)
  | (h, none, freed) => .inr (.ok (h, freed))
  | (h, some cur, freed) =>
    match (do
      let node ← load h (some cur)
      let h ← free h (some cur)
      pure (h, node.next, freed ++ [node.data]) :
        Except Fault (Heap (Node β) × Option Nat × List β)) with
    | .error e => .inr (.error e)
    | .ok next => .inl next

theorem ends_free {h : Heap (Node β)} {p : Option Nat} {cells : List (Nat × β)}
    (hs : Seg h p cells none) (freed : List β) :
    ∃ h', Ends freeStep (h, p, freed) (.ok (h', freed ++ cells.map Prod.snd)) ∧
      ∀ a, a ∉ cells.map Prod.fst → h' a = h a := by
  induction cells generalizing h p freed with
  | nil =>
    obtain rfl : p = none := hs
    exact ⟨h, ends_done _ (by simp [freeStep]), fun _ _ => rfl⟩
  | cons c cells ih =>
    obtain ⟨rfl, next, hc, -⟩ := id hs
    obtain ⟨h', hends, hkeep⟩ := ih (hs.tail hc) (freed ++ [c.2])
    rw [List.append_assoc] at hends
    refine ⟨h', ends_next _ ?_ hends, fun a ha => ?_⟩
    · simp [freeStep, load_some hc, free_some hc, bind, Except.bind, pure, Except.pure]
    · rw [List.map_cons, List.mem_cons, not_or] at ha
      rw [hkeep a ha.2, Function.update_of_ne ha.1]

end ListServer.Lib.Queue
