import ListServer.ChainServer
import ListServer.Lib.Neighbour

namespace ListServer.Topology

open Lib.CTypes Lib.Scan Lib.Neighbour ChainServer

/-- The children whose names read as `node-%d`. -/
def parsed (children : List CString) : List CString :=
  children.filter fun name => (nodeNumber name).isSome

def number (name : CString) : Int := (nodeNumber name).getD 0

def succ (before : Int) (children : List CString) (name : CString) : Option CString :=
  updateNext (ownNumber before (nodePath name)) children

def pred (before : Int) (children : List CString) (name : CString) : Option CString :=
  initListPrev (ownNumber before (nodePath name)) children

/-- The numbers that ZooKeeper gives to the children of one node. -/
structure Numbered (children : List CString) : Prop where
  distinct : ((parsed children).map number).Nodup
  bounds : ∀ name ∈ parsed children, 0 ≤ number name ∧ number name < 2147483647
  nonempty : parsed children ≠ []

variable {children : List CString} {name : CString} {before : Int}

theorem mem_parsed {n : Int} : name ∈ children ∧ nodeNumber name = some n ↔
    name ∈ parsed children ∧ number name = n := by
  simp only [parsed, List.mem_filter, number, Option.isSome_iff_exists]
  constructor
  · rintro ⟨hm, hn⟩
    exact ⟨⟨hm, n, hn⟩, by rw [hn, Option.getD_some]⟩
  · rintro ⟨⟨hm, k, hk⟩, rfl⟩
    exact ⟨hm, by rw [hk, Option.getD_some]⟩

theorem Numbered.injOn (h : Numbered children) :
    Set.InjOn number {x | x ∈ parsed children} :=
  List.inj_on_of_nodup_map h.distinct

theorem ownNumber_of_parsed (before : Int) (h : name ∈ parsed children) :
    ownNumber before (nodePath name) = number name := by
  obtain ⟨-, hn⟩ := mem_parsed.mpr ⟨h, rfl⟩
  rw [ownNumber_nodePath, hn, Option.getD_some]

/-- The first of the best children is the best one where numbers are distinct. -/
theorem best_parsed {p : Int → Prop} {r : Int → Int → Prop} [IsStrictTotalOrder Int r] {n : Int}
    (h : Best nodeNumber p r children name n) : name ∈ parsed children ∧ number name = n ∧ p n ∧
      ∀ z ∈ parsed children, p (number z) → n = number z ∨ r n (number z) := by
  obtain ⟨l, m, hb⟩ := id h
  obtain ⟨hmem, hnum⟩ := mem_parsed.mp ⟨h.mem, hb.number⟩
  refine ⟨hmem, hnum, hb.candidate, fun z hz hp => ?_⟩
  obtain ⟨hzm, hzn⟩ := mem_parsed.mpr ⟨hz, rfl⟩
  exact h.eq_or_rel hzm hzn hp

theorem one_lt_length {x z : CString} (hx : x ∈ children) (hz : z ∈ children)
    (hne : number x ≠ number z) : 1 < children.length := by
  by_contra hlen
  obtain ⟨y, hy⟩ : ∃ y, children ⊆ [y] := by
    cases hc : children with
    | nil => simp [hc] at hx
    | cons y l =>
      have hl : l = [] := by simpa [hc] using hlen
      exact ⟨y, by simp [hl]⟩
  apply hne
  rw [List.mem_singleton.mp (hy hx), List.mem_singleton.mp (hy hz)]

theorem successor_succ (h : Numbered children) :
    Successor number (parsed children) (succ before children) where
  found x hx y hy := by
    rw [succ, ownNumber_of_parsed before hx] at hy
    obtain ⟨-, hy⟩ := Option.ite_none_right_eq_some.mp hy
    obtain ⟨n, hn⟩ := (pick_eq_some nodeNumber (number x < ·) (· < ·) intMax children).mp hy
    obtain ⟨hmem, rfl, hc, hbest⟩ := best_parsed hn
    refine ⟨hmem, hc.1, fun z hz hlt => ?_⟩
    obtain he | hlt := hbest z hz ⟨hlt, (h.bounds z hz).2⟩
    · exact he.le
    · exact hlt.le
  last x hx hnone z hz hlt := by
    obtain ⟨hzm, hzn⟩ := mem_parsed.mpr ⟨hz, rfl⟩
    obtain ⟨hxm, -⟩ := mem_parsed.mpr ⟨hx, rfl⟩
    rw [succ, ownNumber_of_parsed before hx, updateNext,
      if_pos (one_lt_length hxm hzm hlt.ne)] at hnone
    have hno := (pick_eq_none nodeNumber (number x < ·) (· < ·) intMax children).mp hnone
    exact hno z hzm _ hzn ⟨hlt, (h.bounds z hz).2⟩

theorem predecessor_pred (h : Numbered children) :
    Predecessor number (parsed children) (pred before children) where
  found x hx y hy := by
    rw [pred, ownNumber_of_parsed before hx] at hy
    obtain ⟨-, hy⟩ := Option.ite_none_left_eq_some.mp hy
    obtain ⟨n, hn⟩ := (pick_eq_some nodeNumber (· < number x) (· > ·) intMin children).mp hy
    obtain ⟨hmem, rfl, hc, hbest⟩ := best_parsed hn
    refine ⟨hmem, hc.1, fun z hz hlt => ?_⟩
    have hz0 := (h.bounds z hz).1
    obtain he | hlt := hbest z hz ⟨hlt, by simp only [intMin]; omega⟩
    · exact he.ge
    · exact le_of_lt hlt
  first x hx hnone z hz hlt := by
    obtain ⟨hzm, hzn⟩ := mem_parsed.mpr ⟨hz, rfl⟩
    obtain ⟨hxm, -⟩ := mem_parsed.mpr ⟨hx, rfl⟩
    have hlen := one_lt_length hxm hzm hlt.ne'
    rw [pred, ownNumber_of_parsed before hx, initListPrev, if_neg (by omega)] at hnone
    have hno := (pick_eq_none nodeNumber (· < number x) (· > ·) intMin children).mp hnone
    have hz0 := (h.bounds z hz).1
    exact hno z hzm _ hzn ⟨hlt, by simp only [intMin]; omega⟩

/-- Where the pass takes some child, the default index 0 plays no role. -/
theorem getD_of_pick {take : Int → Int → Bool} {sentinel : Int}
    (h : pick nodeNumber take sentinel children = some name) :
    children[(scan nodeNumber take children 0 (sentinel, none)).2.getD 0]? = some name := by
  obtain ⟨i, hi, hx⟩ := Option.bind_eq_some_iff.mp h
  rwa [hi, Option.getD_some]

theorem pick_parsed {r : Int → Int → Prop} [DecidableRel r] [IsStrictTotalOrder Int r]
    {sentinel : Int} (h : Numbered children)
    (hbound : ∀ z ∈ parsed children, r (number z) sentinel) :
    ∃ best ∈ parsed children,
      pick nodeNumber (fun num m => decide (r num m)) sentinel children = some best ∧
        ∀ z ∈ parsed children, number best = number z ∨ r (number best) (number z) := by
  have htake : (fun num m : Int => decide (r num m)) =
      fun num m => decide True && decide (r num m) := by simp
  obtain ⟨x, hx⟩ := List.exists_mem_of_ne_nil _ h.nonempty
  obtain ⟨hxm, hxn⟩ := mem_parsed.mpr ⟨hx, rfl⟩
  rw [htake]
  cases hp : pick nodeNumber (fun num m => decide True && decide (r num m)) sentinel children with
  | none =>
    have hno := (pick_eq_none nodeNumber (fun _ => True) r sentinel children).mp hp
    exact absurd ⟨trivial, hbound x hx⟩ (hno x hxm _ hxn)
  | some best =>
    obtain ⟨n, hn⟩ := (pick_eq_some nodeNumber (fun _ => True) r sentinel children).mp hp
    obtain ⟨hmem, rfl, -, hbest⟩ := best_parsed hn
    exact ⟨best, hmem, rfl, fun z hz => hbest z hz ⟨trivial, hbound z hz⟩⟩

theorem clientHead_spec (h : Numbered children) :
    ∃ head ∈ parsed children, clientHead children = some head ∧
      ∀ z ∈ parsed children, number head ≤ number z := by
  obtain ⟨head, hmem, hpick, hbest⟩ :=
    pick_parsed (r := (· < ·)) h (fun z hz => (h.bounds z hz).2)
  refine ⟨head, hmem, getD_of_pick hpick, fun z hz => ?_⟩
  obtain he | hlt := hbest z hz
  · exact he.le
  · exact le_of_lt hlt

theorem clientTail_spec (h : Numbered children) :
    ∃ tail ∈ parsed children, clientTail children = some tail ∧
      ∀ z ∈ parsed children, number z ≤ number tail := by
  have hbound : ∀ z ∈ parsed children, number z > intMin := fun z hz => by
    have hz0 := (h.bounds z hz).1
    simp only [intMin]
    omega
  obtain ⟨tail, hmem, hpick, hbest⟩ := pick_parsed (r := (· > ·)) h hbound
  refine ⟨tail, hmem, getD_of_pick hpick, fun z hz => ?_⟩
  obtain he | hlt := hbest z hz
  · exact he.ge
  · exact le_of_lt hlt

/-- The choices of servers and clients fit together into one chain. -/
structure Consistent (before : Int) (children : List CString) (head tail : CString) : Prop where
  head_mem : head ∈ parsed children
  tail_mem : tail ∈ parsed children
  succ_mem : ∀ x ∈ parsed children, ∀ y, succ before children x = some y → y ∈ parsed children
  pred_mem : ∀ x ∈ parsed children, ∀ y, pred before children x = some y → y ∈ parsed children
  inverse : ∀ x ∈ parsed children, ∀ y ∈ parsed children,
    succ before children x = some y ↔ pred before children y = some x
  head_only : ∀ x ∈ parsed children, pred before children x = none ↔ x = head
  tail_only : ∀ x ∈ parsed children, succ before children x = none ↔ x = tail
  visits : ∀ k, (parsed children).length ≤ k →
    (walk (succ before children) k head).Perm (parsed children)
  increasing : ∀ k, (parsed children).length ≤ k →
    (walk (succ before children) k head).Pairwise fun x y => number x < number y
  ends : ∀ k, (parsed children).length ≤ k →
    (walk (succ before children) k head).getLast? = some tail

theorem chain_consistent (before : Int) (children : List CString) (h : Numbered children) :
    ∃ head tail, clientHead children = some head ∧ clientTail children = some tail ∧
      Consistent before children head tail := by
  obtain ⟨head, hhm, hhead, hmin⟩ := clientHead_spec h
  obtain ⟨tail, htm, htail, hmax⟩ := clientTail_spec h
  have hs : Successor number (parsed children) (succ before children) := successor_succ h
  have hp : Predecessor number (parsed children) (pred before children) := predecessor_pred h
  have hnodup : (parsed children).Nodup := h.distinct.of_map _
  have hwalk := fun k hk => walk_from_least (k := k) hs h.injOn hnodup hhm hmin hk
  refine ⟨head, tail, hhead, htail, hhm, htm, fun x hx y hy => (hs.found x hx y hy).mem,
    fun x hx y hy => (hp.found x hx y hy).mem, fun x hx y hy => ?_, fun x hx => ?_, fun x hx => ?_,
    fun k hk => (hwalk k hk).1, fun k hk => (hwalk k hk).2,
    fun k hk => last_of_sorted (hwalk k hk).1 (hwalk k hk).2 htm hmax⟩
  · rw [hs.eq_some h.injOn hx, hp.eq_some h.injOn hy]
    exact next_iff_previous hx hy
  · rw [hp.eq_none hx]
    constructor
    · exact fun hle => h.injOn hx hhm (le_antisymm (hle head hhm) (hmin x hx))
    · exact fun he => he ▸ hmin
  · rw [hs.eq_none hx]
    constructor
    · exact fun hle => h.injOn hx htm (le_antisymm (hmax x hx) (hle tail htm))
    · exact fun he => he ▸ hmax

/-- The names `node-12`, `locks`, `node-3`. -/
def threeChildren : List CString :=
  [ofBytes (nodeLiteral ++ [49, 50]), ofBytes [108, 111, 99, 107, 115], ofBytes (nodeLiteral ++ [51])]

theorem chain_consistent_threeChildren :
    ∃ head tail, clientHead threeChildren = some head ∧ clientTail threeChildren = some tail ∧
      Consistent 0 threeChildren head tail :=
  chain_consistent 0 threeChildren ⟨by decide, by decide, by decide⟩

end ListServer.Topology
