import Victauri.Library.Condensation
import Victauri.Plugin.Database.ViewChain

/-!
# The search closes components

The invariant of the search.  Seen nodes are numbered in the order they were seen; the
ones not yet in a closed group are open, on `group`, newest first.  The stack is a path
of open nodes, and every open node hangs below one of them.  `low` of an open node is
the number of an open node it reaches, and bounds from below the numbers of the open
nodes its searched dependencies lead to.  Of a closed node `chain` is the heaviest path
of components from it.

What closing needs of this is `members_component`: the open nodes from a node on whose
`low` is its own number are its component.
-/

namespace Victauri.Plugin.Database.Search

open Relation Victauri.Core Victauri.Library.Condensation

variable {n : Nat}

/-- An edge of the graph. -/
def Edge (deps : Fin n → List (Fin n)) (v w : Fin n) : Prop := w ∈ deps v

/-- The saturating sum of a component's costs. -/
noncomputable def groupCost (own : Fin n → Nat) {E : Fin n → Fin n → Prop} (C : Component E) :
    Nat :=
  min (componentCost own C) Core.usizeMax

/-- `total` is the most a path of components from `v` costs. -/
def Heaviest (own : Fin n → Nat) (deps : Fin n → List (Fin n)) (v : Fin n) (total : Nat) : Prop :=
  IsGreatest (pathCost Core.saturatingAdd (groupCost own) '' PathsFrom (Edge deps) (component _ v))
    total

/-- With this stack, the edge from `v` to `w` has been looked at. -/
def Looked (deps : Fin n → List (Fin n)) (stack : List (Fin n × Nat)) (v w : Fin n) : Prop :=
  w ∈ deps v ∧ ∀ i, (v, i) ∈ stack → w ∈ (deps v).take i

/-- `v` was seen, and its group is closed. -/
def Closed (s : Search n) (v : Fin n) : Prop := s.order v ≠ 0 ∧ v ∉ s.group

structure Inv (own : Fin n → Nat) (deps : Fin n → List (Fin n)) (s : Search n) : Prop where
  order_le : ∀ v, s.order v ≤ s.visited
  order_inj : ∀ {v w}, s.order v ≠ 0 → s.order v = s.order w → v = w
  isOpen_iff : ∀ v, s.isOpen v = true ↔ v ∈ s.group
  group_seen : ∀ {v}, v ∈ s.group → s.order v ≠ 0
  group_sorted : s.group.Pairwise fun v w => s.order w < s.order v
  stack_open : ∀ {v i}, (v, i) ∈ s.stack → v ∈ s.group
  stack_sorted : s.stack.Pairwise fun d e => s.order e.1 < s.order d.1
  /-- Every open node was seen from some node on the stack on. -/
  covered : ∀ {v}, v ∈ s.group → ∃ u i, (u, i) ∈ s.stack ∧ s.order u ≤ s.order v
  /-- A node on the stack reaches every open node seen from it on. -/
  descends : ∀ {u i v}, (u, i) ∈ s.stack → v ∈ s.group → s.order u ≤ s.order v →
    ReflTransGen (Edge deps) u v
  looked_seen : ∀ {v w}, s.order v ≠ 0 → Looked deps s.stack v w → s.order w ≠ 0
  closed_edge : ∀ {v w}, Closed s v → w ∈ deps v → Closed s w
  low_le : ∀ {v}, v ∈ s.group → s.low v ≤ s.order v
  low_looked : ∀ {v w}, v ∈ s.group → Looked deps s.stack v w → w ∈ s.group →
    s.low v ≤ s.order w
  low_reached : ∀ {v}, v ∈ s.group →
    ∃ u ∈ s.group, s.order u = s.low v ∧ ReflTransGen (Edge deps) v u
  /-- A searched node that is still open reaches one seen before it. -/
  low_lt : ∀ {v}, v ∈ s.group → (∀ i, (v, i) ∉ s.stack) → s.low v < s.order v
  /-- The last node on the stack before an open, searched node has taken over its `low`. -/
  low_parent : ∀ {u i v}, (u, i) ∈ s.stack → v ∈ s.group → (∀ j, (v, j) ∉ s.stack) →
    s.order u < s.order v →
    (∀ u' j, (u', j) ∈ s.stack → s.order u' < s.order v → s.order u' ≤ s.order u) →
    s.low u ≤ s.low v
  chain_open : ∀ {v}, ¬ Closed s v → s.chain v = 0
  chain_closed : ∀ {v}, Closed s v → Heaviest own deps v (s.chain v)
  chain_le : ∀ v, s.chain v ≤ s.deepest
  deepest_eq : s.deepest = 0 ∨ ∃ v, Closed s v ∧ s.deepest = s.chain v

variable {own : Fin n → Nat} {deps : Fin n → List (Fin n)} {s : Search n}

theorem inv_init : Inv own deps (init n) := by
  constructor <;> simp [init, Closed]

/-! ## Looking at one more edge -/

section Push

variable (s : Search n) (dep : Fin n)

@[simp] theorem push_visited : (s.push dep).visited = s.visited + 1 := rfl

@[simp] theorem push_group : (s.push dep).group = dep :: s.group := rfl

@[simp] theorem push_stack : (s.push dep).stack = (dep, 0) :: s.stack := rfl

@[simp] theorem push_chain : (s.push dep).chain = s.chain := rfl

@[simp] theorem push_deepest : (s.push dep).deepest = s.deepest := rfl

@[simp] theorem push_order_self : (s.push dep).order dep = s.visited + 1 := by
  simp [push]

@[simp] theorem push_low_self : (s.push dep).low dep = s.visited + 1 := by
  simp [push]

theorem push_order_of_ne {v : Fin n} (h : v ≠ dep) : (s.push dep).order v = s.order v := by
  simp [push, h]

theorem push_low_of_ne {v : Fin n} (h : v ≠ dep) : (s.push dep).low v = s.low v := by
  simp [push, h]

end Push

theorem not_looked_zero {v w : Fin n} {stack : List (Fin n × Nat)} :
    ¬ Looked deps ((v, 0) :: stack) v w := by
  rintro ⟨-, h⟩
  simpa using h 0 List.mem_cons_self

/-- The invariant after an unseen node was seen, which the nodes on the stack lead to.
On the stack `T` below it, only edges to it are newly looked at. -/
theorem Inv.push (h : Inv own deps s) {dep : Fin n} (hunseen : s.order dep = 0)
    {T : List (Fin n × Nat)} (hmem : ∀ v, (∃ i, (v, i) ∈ s.stack) ↔ ∃ i, (v, i) ∈ T)
    (hsorted : T.Pairwise fun d e => s.order e.1 < s.order d.1)
    (hlook : ∀ v w, Looked deps T v w → Looked deps s.stack v w ∨ w = dep)
    (hreach : ∀ u i, (u, i) ∈ s.stack → ReflTransGen (Edge deps) u dep) :
    Inv own deps (Search.push { s with stack := T } dep) := by
  have hgroup {v : Fin n} (hv : v ∈ s.group) : v ≠ dep := by
    rintro rfl
    exact h.group_seen hv hunseen
  have hdep : dep ∉ s.group := fun hmem => hgroup hmem rfl
  have hstack {v : Fin n} {i : Nat} (hv : (v, i) ∈ T) : ∃ j, (v, j) ∈ s.stack :=
    (hmem v).mpr ⟨i, hv⟩
  have hold {v : Fin n} {i : Nat} (hv : (v, i) ∈ T) : v ∈ s.group := by
    obtain ⟨j, hj⟩ := hstack hv
    exact h.stack_open hj
  have hlt (v : Fin n) : s.order v < s.visited + 1 := Nat.lt_succ_of_le (h.order_le v)
  have horder {v : Fin n} (hv : v ≠ dep) :
      (Search.push { s with stack := T } dep).order v = s.order v := push_order_of_ne _ _ hv
  have hlow {v : Fin n} (hv : v ≠ dep) :
      (Search.push { s with stack := T } dep).low v = s.low v := push_low_of_ne _ _ hv
  have hclosed (v : Fin n) : Closed (Search.push { s with stack := T } dep) v ↔ Closed s v := by
    by_cases hv : v = dep
    · subst hv
      simp [Closed, hunseen]
    · simp [Closed, horder hv, hv]
  have hlooked {v w : Fin n} (hl : Looked deps ((dep, 0) :: T) v w) :
      v ≠ dep ∧ (Looked deps s.stack v w ∨ w = dep) := by
    have hv : v ≠ dep := by
      rintro rfl
      exact not_looked_zero hl
    exact ⟨hv, hlook v w ⟨hl.1, fun i hi => hl.2 i (List.mem_cons_of_mem _ hi)⟩⟩
  have hoff {v : Fin n} (hv : ∀ i, (v, i) ∉ (dep, 0) :: T) : v ≠ dep ∧ ∀ i, (v, i) ∉ s.stack := by
    refine ⟨?_, fun i hi => ?_⟩
    · rintro rfl
      exact hv 0 List.mem_cons_self
    · obtain ⟨j, hj⟩ := (hmem v).mp ⟨i, hi⟩
      exact hv j (List.mem_cons_of_mem _ hj)
  have hentry {v : Fin n} {i : Nat} (hv : (v, i) ∈ (dep, 0) :: T) :
      v = dep ∨ v ≠ dep ∧ ∃ j, (v, j) ∈ s.stack := by
    rcases List.mem_cons.mp hv with hv | hv
    · exact .inl (Prod.mk.inj hv).1
    · exact .inr ⟨hgroup (hold hv), hstack hv⟩
  constructor
  case order_le =>
    intro v
    by_cases hv : v = dep
    · subst hv
      simp
    · rw [horder hv]
      exact Nat.le_of_lt (hlt v)
  case order_inj =>
    intro v w hv hvw
    by_cases hvd : v = dep <;> by_cases hwd : w = dep
    · exact hvd.trans hwd.symm
    · subst hvd
      rw [push_order_self, horder hwd] at hvw
      exact absurd hvw.symm (Nat.ne_of_lt (hlt w))
    · subst hwd
      rw [push_order_self, horder hvd] at hvw
      exact absurd hvw (Nat.ne_of_lt (hlt v))
    · rw [horder hvd] at hv
      rw [horder hvd, horder hwd] at hvw
      exact h.order_inj hv hvw
  case isOpen_iff =>
    intro v
    by_cases hv : v = dep
    · simp [Search.push, hv]
    · simpa [Search.push, hv] using h.isOpen_iff v
  case group_seen =>
    intro v hv
    rcases List.mem_cons.mp hv with rfl | hv
    · simp
    · rw [horder (hgroup hv)]
      exact h.group_seen hv
  case group_sorted =>
    rw [push_group, List.pairwise_cons]
    refine ⟨fun v hv => ?_, h.group_sorted.imp_of_mem fun hv hw hvw => ?_⟩
    · rw [push_order_self, horder (hgroup hv)]
      exact hlt v
    · rwa [horder (hgroup hv), horder (hgroup hw)]
  case stack_open =>
    intro v i hv
    rcases hentry hv with rfl | ⟨-, j, hj⟩
    · exact List.mem_cons_self
    · exact List.mem_cons_of_mem _ (h.stack_open hj)
  case stack_sorted =>
    rw [push_stack, List.pairwise_cons]
    refine ⟨fun e he => ?_, hsorted.imp_of_mem fun hd he hde => ?_⟩
    · rw [push_order_self, horder (hgroup (hold he))]
      exact hlt e.1
    · rwa [horder (hgroup (hold hd)), horder (hgroup (hold he))]
  case covered =>
    intro v hv
    rcases List.mem_cons.mp hv with rfl | hv
    · exact ⟨v, 0, List.mem_cons_self, Nat.le_refl _⟩
    · obtain ⟨u, i, hu, hle⟩ := h.covered hv
      obtain ⟨j, hj⟩ := (hmem u).mp ⟨i, hu⟩
      refine ⟨u, j, List.mem_cons_of_mem _ hj, ?_⟩
      rwa [horder (hgroup hv), horder (hgroup (hold hj))]
  case descends =>
    intro u i v hu hv hle
    rcases hentry hu with rfl | ⟨hne, j, hj⟩
    · rcases List.mem_cons.mp hv with rfl | hv
      · exact .refl
      · rw [push_order_self, horder (hgroup hv)] at hle
        exact absurd hle (Nat.not_le_of_lt (hlt v))
    · rcases List.mem_cons.mp hv with rfl | hv
      · exact hreach u j hj
      · rw [horder hne, horder (hgroup hv)] at hle
        exact h.descends hj hv hle
  case looked_seen =>
    intro v w hv hl
    obtain ⟨hne, hl | rfl⟩ := hlooked hl
    · rw [horder hne] at hv
      have hw := h.looked_seen hv hl
      by_cases hwd : w = dep
      · subst hwd
        simp
      · rwa [horder hwd]
    · simp
  case closed_edge =>
    intro v w hv hw
    rw [hclosed] at hv ⊢
    exact h.closed_edge hv hw
  case low_le =>
    intro v hv
    rcases List.mem_cons.mp hv with rfl | hv
    · simp
    · rw [hlow (hgroup hv), horder (hgroup hv)]
      exact h.low_le hv
  case low_looked =>
    intro v w hv hl hw
    obtain ⟨hne, hl⟩ := hlooked hl
    have hvgroup : v ∈ s.group := (List.mem_cons.mp hv).resolve_left hne
    rw [hlow hne]
    by_cases hwd : w = dep
    · subst hwd
      rw [push_order_self]
      exact Nat.le_of_lt (Nat.lt_of_le_of_lt (h.low_le hvgroup) (hlt v))
    · rw [horder hwd]
      exact h.low_looked hvgroup (hl.resolve_right hwd) ((List.mem_cons.mp hw).resolve_left hwd)
  case low_reached =>
    intro v hv
    rcases List.mem_cons.mp hv with rfl | hv
    · exact ⟨v, List.mem_cons_self, by simp, .refl⟩
    · obtain ⟨u, hu, hord, hvu⟩ := h.low_reached hv
      refine ⟨u, List.mem_cons_of_mem _ hu, ?_, hvu⟩
      rw [horder (hgroup hu), hlow (hgroup hv), hord]
  case low_lt =>
    intro v hv hv'
    obtain ⟨hne, hv'⟩ := hoff hv'
    rw [hlow hne, horder hne]
    exact h.low_lt ((List.mem_cons.mp hv).resolve_left hne) hv'
  case low_parent =>
    intro u i v hu hv hv' hlt' hlast
    obtain ⟨hne, hv'⟩ := hoff hv'
    have hv : v ∈ s.group := (List.mem_cons.mp hv).resolve_left hne
    rcases hentry hu with rfl | ⟨hune, j, hj⟩
    · rw [push_order_self, horder hne] at hlt'
      exact absurd hlt' (Nat.not_lt_of_le (Nat.le_of_lt (hlt v)))
    · rw [horder hune, horder hne] at hlt'
      rw [hlow hune, hlow hne]
      refine h.low_parent hj hv hv' hlt' fun u' j' hu' huv => ?_
      obtain ⟨k, hk⟩ := (hmem u').mp ⟨j', hu'⟩
      have hu'ne := hgroup (h.stack_open hu')
      have hle := hlast u' k (List.mem_cons_of_mem _ hk) (by rwa [horder hu'ne, horder hne])
      rwa [horder hu'ne, horder hune] at hle
  case chain_open =>
    intro v hv
    rw [hclosed] at hv
    exact h.chain_open hv
  case chain_closed =>
    intro v hv
    rw [hclosed] at hv
    exact h.chain_closed hv
  case chain_le => exact h.chain_le
  case deepest_eq =>
    rcases h.deepest_eq with h0 | ⟨v, hv, hdeepest⟩
    · exact .inl h0
    · exact .inr ⟨v, (hclosed v).mpr hv, hdeepest⟩

section Top

variable {node dep : Fin n} {next : Nat} {rest : List (Fin n × Nat)}

theorem Inv.rest_lt (h : Inv own deps s) (hstack : s.stack = (node, next) :: rest) {u : Fin n}
    {i : Nat} (hu : (u, i) ∈ rest) : s.order u < s.order node := by
  have hsorted := h.stack_sorted
  rw [hstack, List.pairwise_cons] at hsorted
  exact hsorted.1 _ hu

theorem Inv.top_not_mem_rest (h : Inv own deps s) (hstack : s.stack = (node, next) :: rest)
    (i : Nat) : (node, i) ∉ rest :=
  fun hi => Nat.lt_irrefl _ (h.rest_lt hstack hi)

theorem Inv.top_open (h : Inv own deps s) (hstack : s.stack = (node, next) :: rest) :
    node ∈ s.group :=
  h.stack_open (by rw [hstack]; exact List.mem_cons_self)

/-- The entries of the stack are those of the stack with the top moved on. -/
theorem mem_advanced {v : Fin n} :
    (∃ i, (v, i) ∈ (node, next) :: rest) ↔ ∃ i, (v, i) ∈ (node, next + 1) :: rest := by
  simp only [List.mem_cons, Prod.mk.injEq]
  constructor
  · rintro ⟨i, ⟨rfl, rfl⟩ | hi⟩
    · exact ⟨_, .inl ⟨rfl, rfl⟩⟩
    · exact ⟨i, .inr hi⟩
  · rintro ⟨i, ⟨rfl, rfl⟩ | hi⟩
    · exact ⟨_, .inl ⟨rfl, rfl⟩⟩
    · exact ⟨i, .inr hi⟩

/-- Moving the top on looks at one edge. -/
theorem Looked.of_advanced (hrest : ∀ i, (node, i) ∉ rest) (hdep : (deps node)[next]? = some dep)
    {v w : Fin n} (h : Looked deps ((node, next + 1) :: rest) v w) :
    Looked deps ((node, next) :: rest) v w ∨ v = node ∧ w = dep := by
  obtain ⟨hw, hlooked⟩ := h
  by_cases hv : v = node
  · subst hv
    have htake := hlooked (next + 1) List.mem_cons_self
    rw [List.take_add_one, hdep, List.mem_append] at htake
    rcases htake with htake | hlast
    · refine .inl ⟨hw, fun i hi => ?_⟩
      rcases List.mem_cons.mp hi with hi | hi
      · obtain ⟨-, rfl⟩ := Prod.mk.inj hi
        exact htake
      · exact absurd hi (hrest i)
    · exact .inr ⟨rfl, by simpa using hlast⟩
  · refine .inl ⟨hw, fun i hi => hlooked i ?_⟩
    rcases List.mem_cons.mp hi with hi | hi
    · exact absurd (Prod.mk.inj hi).1 hv
    · exact List.mem_cons_of_mem _ hi

/-- The invariant after a dependency was looked at that had been seen before: `low` of
the top may have gone down to `l`. -/
theorem Inv.advance (h : Inv own deps s) (hstack : s.stack = (node, next) :: rest)
    (hdep : (deps node)[next]? = some dep) (hseen : s.order dep ≠ 0) {l : Nat}
    (hle : l ≤ s.low node) (hlooked : dep ∈ s.group → l ≤ s.order dep)
    (hreached : ∃ u ∈ s.group, s.order u = l ∧ ReflTransGen (Edge deps) node u) :
    Inv own deps
      { s with stack := (node, next + 1) :: rest, low := Function.update s.low node l } := by
  have hrest := h.top_not_mem_rest hstack
  have hmem {v : Fin n} {i : Nat} (hv : (v, i) ∈ (node, next + 1) :: rest) :
      ∃ i, (v, i) ∈ s.stack := by
    rw [hstack]
    exact mem_advanced.mpr ⟨i, hv⟩
  have hmem' {v : Fin n} {i : Nat} (hv : (v, i) ∈ s.stack) :
      ∃ i, (v, i) ∈ (node, next + 1) :: rest := by
    rw [hstack] at hv
    exact mem_advanced.mp ⟨i, hv⟩
  have hnot {v : Fin n} (hv : ∀ i, (v, i) ∉ (node, next + 1) :: rest) :
      v ≠ node ∧ ∀ i, (v, i) ∉ s.stack := by
    refine ⟨?_, fun i hi => ?_⟩
    · rintro rfl
      exact hv _ List.mem_cons_self
    · obtain ⟨j, hj⟩ := hmem' hi
      exact hv j hj
  have hlook {v w : Fin n} (hl : Looked deps ((node, next + 1) :: rest) v w) :
      Looked deps s.stack v w ∨ v = node ∧ w = dep := by
    rw [hstack]
    exact hl.of_advanced hrest hdep
  have hlow (v : Fin n) : Function.update s.low node l v ≤ s.low v := by
    by_cases hv : v = node
    · subst hv
      rwa [Function.update_self]
    · rw [Function.update_of_ne hv]
  constructor
  case order_le => exact h.order_le
  case order_inj => exact h.order_inj
  case isOpen_iff => exact h.isOpen_iff
  case group_seen => exact h.group_seen
  case group_sorted => exact h.group_sorted
  case stack_open =>
    intro v i hv
    obtain ⟨j, hj⟩ := hmem hv
    exact h.stack_open hj
  case stack_sorted =>
    have hsorted := h.stack_sorted
    rw [hstack, List.pairwise_cons] at hsorted
    exact List.pairwise_cons.mpr hsorted
  case covered =>
    intro v hv
    obtain ⟨u, i, hu, hle⟩ := h.covered hv
    obtain ⟨j, hj⟩ := hmem' hu
    exact ⟨u, j, hj, hle⟩
  case descends =>
    intro u i v hu
    obtain ⟨j, hj⟩ := hmem hu
    exact h.descends hj
  case looked_seen =>
    intro v w hv hl
    rcases hlook hl with hl | ⟨-, rfl⟩
    · exact h.looked_seen hv hl
    · exact hseen
  case closed_edge => exact h.closed_edge
  case low_le =>
    intro v hv
    exact Nat.le_trans (hlow v) (h.low_le hv)
  case low_looked =>
    intro v w hv hl hw
    rcases hlook hl with hl | ⟨rfl, rfl⟩
    · exact Nat.le_trans (hlow v) (h.low_looked hv hl hw)
    · simp only [Function.update_self]
      exact hlooked hw
  case low_reached =>
    intro v hv
    by_cases hnode : v = node
    · subst hnode
      simp only [Function.update_self]
      exact hreached
    · simp only [Function.update_of_ne hnode]
      exact h.low_reached hv
  case low_lt =>
    intro v hv hoff
    obtain ⟨hnode, hoff⟩ := hnot hoff
    simp only [Function.update_of_ne hnode]
    exact h.low_lt hv hoff
  case low_parent =>
    intro u i v hu hv hoff hlt hlast
    obtain ⟨hnode, hoff⟩ := hnot hoff
    obtain ⟨j, hj⟩ := hmem hu
    simp only [Function.update_of_ne hnode]
    refine Nat.le_trans (hlow u) (h.low_parent hj hv hoff hlt fun u' j' hu' => ?_)
    obtain ⟨k, hk⟩ := hmem' hu'
    exact hlast u' k hk
  case chain_open => exact h.chain_open
  case chain_closed => exact h.chain_closed
  case chain_le => exact h.chain_le
  case deepest_eq => exact h.deepest_eq

/-- The invariant after a dependency of the top was seen for the first time. -/
theorem Inv.push_dep (h : Inv own deps s) (hstack : s.stack = (node, next) :: rest)
    (hdep : (deps node)[next]? = some dep) (hunseen : s.order dep = 0) :
    Inv own deps (Search.push { s with stack := (node, next + 1) :: rest } dep) := by
  apply h.push hunseen
  · intro v
    rw [hstack]
    exact mem_advanced
  · have hsorted := h.stack_sorted
    rw [hstack, List.pairwise_cons] at hsorted
    exact List.pairwise_cons.mpr hsorted
  · intro v w hl
    rw [hstack]
    exact (hl.of_advanced (h.top_not_mem_rest hstack) hdep).imp_right And.right
  · intro u i hu
    have hle : s.order u ≤ s.order node := by
      rw [hstack] at hu
      rcases List.mem_cons.mp hu with hu | hu
      · rw [(Prod.mk.inj hu).1]
      · exact Nat.le_of_lt (h.rest_lt hstack hu)
    exact (h.descends hu (h.top_open hstack) hle).tail (List.mem_of_getElem? hdep)

/-- The invariant after a search was started. -/
theorem Inv.push_root (h : Inv own deps s) (hstack : s.stack = []) {root : Fin n}
    (hunseen : s.order root = 0) :
    Inv own deps { s.push root with stack := [(root, 0)] } := by
  refine h.push hunseen (T := []) ?_ .nil ?_ ?_
  · simp [hstack]
  · intro v w hl
    rw [hstack]
    exact .inl hl
  · simp [hstack]

/-! ## Leaving a node -/

/-- Once the top has no more dependencies, taking it off the stack looks at nothing. -/
theorem Inv.looked_of_rest (hstack : s.stack = (node, next) :: rest)
    (hdone : (deps node)[next]? = none) {v w : Fin n} (hl : Looked deps rest v w) :
    Looked deps s.stack v w := by
  refine ⟨hl.1, fun i hi => ?_⟩
  rw [hstack] at hi
  rcases List.mem_cons.mp hi with hi | hi
  · obtain ⟨rfl, rfl⟩ := Prod.mk.inj hi
    rw [List.take_of_length_le (List.getElem?_eq_none_iff.mp hdone)]
    exact hl.1
  · exact hl.2 i hi

/-- A node whose `low` is smaller has a parent. -/
theorem Inv.exists_parent (h : Inv own deps s) (hstack : s.stack = (node, next) :: rest)
    (hlt : s.low node < s.order node) : ∃ parent j rest', rest = (parent, j) :: rest' := by
  obtain ⟨u, hu, hord, -⟩ := h.low_reached (h.top_open hstack)
  obtain ⟨p, j, hp, hle⟩ := h.covered hu
  rw [hstack] at hp
  rcases List.mem_cons.mp hp with hp | hp
  · obtain ⟨rfl, -⟩ := Prod.mk.inj hp
    omega
  · cases rest with
    | nil => cases hp
    | cons e rest' => exact ⟨e.1, e.2, rest', rfl⟩

/-- The invariant after a node was left open: its parent takes over its `low`. -/
theorem Inv.leave (h : Inv own deps s) (hdone : (deps node)[next]? = none)
    (hlt : s.low node < s.order node) {parent : Fin n} {j : Nat}
    (hstack : s.stack = (node, next) :: (parent, j) :: rest) :
    Inv own deps
      { s with
        stack := (parent, j) :: rest
        low := Function.update s.low parent (min (s.low parent) (s.low node)) } := by
  have hparent : (parent, j) ∈ s.stack := by
    rw [hstack]
    exact List.mem_cons_of_mem _ List.mem_cons_self
  have hnode : (node, next) ∈ s.stack := by
    rw [hstack]
    exact List.mem_cons_self
  have hparent_lt : s.order parent < s.order node := h.rest_lt hstack List.mem_cons_self
  have hne : node ≠ parent := by
    rintro rfl
    exact Nat.lt_irrefl _ hparent_lt
  have hmem {v : Fin n} {i : Nat} (hv : (v, i) ∈ (parent, j) :: rest) : (v, i) ∈ s.stack := by
    rw [hstack]
    exact List.mem_cons_of_mem _ hv
  have hmem' {v : Fin n} {i : Nat} (hv : (v, i) ∈ s.stack) :
      v = node ∨ (v, i) ∈ (parent, j) :: rest := by
    rw [hstack] at hv
    rcases List.mem_cons.mp hv with hv | hv
    · exact .inl (Prod.mk.inj hv).1
    · exact .inr hv
  have hbelow {v : Fin n} {i : Nat} (hv : (v, i) ∈ (parent, j) :: rest) :
      s.order v ≤ s.order parent := by
    rcases List.mem_cons.mp hv with hv | hv
    · rw [(Prod.mk.inj hv).1]
    · have hsorted := h.stack_sorted
      rw [hstack, List.pairwise_cons, List.pairwise_cons] at hsorted
      exact Nat.le_of_lt (hsorted.2.1 _ hv)
  have hlow (v : Fin n) :
      Function.update s.low parent (min (s.low parent) (s.low node)) v ≤ s.low v := by
    by_cases hv : v = parent
    · subst hv
      rw [Function.update_self]
      exact Nat.min_le_left _ _
    · rw [Function.update_of_ne hv]
  have hlow_parent : Function.update s.low parent (min (s.low parent) (s.low node)) parent ≤
      s.low node := by
    rw [Function.update_self]
    exact Nat.min_le_right _ _
  have hoff {v : Fin n} (hv : ∀ i, (v, i) ∉ (parent, j) :: rest) : v ≠ parent := by
    rintro rfl
    exact hv j List.mem_cons_self
  constructor
  case order_le => exact h.order_le
  case order_inj => exact h.order_inj
  case isOpen_iff => exact h.isOpen_iff
  case group_seen => exact h.group_seen
  case group_sorted => exact h.group_sorted
  case stack_open => exact fun hv => h.stack_open (hmem hv)
  case stack_sorted =>
    have hsorted := h.stack_sorted
    rw [hstack, List.pairwise_cons] at hsorted
    exact hsorted.2
  case covered =>
    intro v hv
    obtain ⟨u, i, hu, hle⟩ := h.covered hv
    rcases hmem' hu with rfl | hu
    · exact ⟨parent, j, List.mem_cons_self, Nat.le_trans (Nat.le_of_lt hparent_lt) hle⟩
    · exact ⟨u, i, hu, hle⟩
  case descends => exact fun hu => h.descends (hmem hu)
  case looked_seen => exact fun hv hl => h.looked_seen hv (Inv.looked_of_rest hstack hdone hl)
  case closed_edge => exact h.closed_edge
  case low_le => exact fun {v} hv => Nat.le_trans (hlow v) (h.low_le hv)
  case low_looked =>
    intro v w hv hl hw
    exact Nat.le_trans (hlow v) (h.low_looked hv (Inv.looked_of_rest hstack hdone hl) hw)
  case low_reached =>
    intro v hv
    by_cases hvp : v = parent
    · subst hvp
      simp only [Function.update_self]
      rcases Nat.le_total (s.low v) (s.low node) with hle | hle
      · rw [Nat.min_eq_left hle]
        exact h.low_reached hv
      · rw [Nat.min_eq_right hle]
        obtain ⟨u, hu, hord, hreach⟩ := h.low_reached (h.stack_open hnode)
        have hdown := h.descends hparent (h.stack_open hnode) (Nat.le_of_lt hparent_lt)
        exact ⟨u, hu, hord, hdown.trans hreach⟩
    · simp only [Function.update_of_ne hvp]
      exact h.low_reached hv
  case low_lt =>
    intro v hv hv'
    simp only [Function.update_of_ne (hoff hv')]
    by_cases hvn : v = node
    · subst hvn
      exact hlt
    · refine h.low_lt hv fun i hi => ?_
      exact (hmem' hi).elim hvn (hv' i)
  case low_parent =>
    intro u i v hu hv hv' huv hlast
    simp only [Function.update_of_ne (hoff hv')]
    -- Below the parent, nothing changes; from the node on, `u` is the parent.
    have hu_eq (hle : s.order parent < s.order v) : u = parent := by
      have hge := hlast parent j List.mem_cons_self hle
      exact h.order_inj (h.group_seen (h.stack_open (hmem hu)))
        (Nat.le_antisymm (hbelow hu) hge)
    rcases Nat.lt_trichotomy (s.order v) (s.order node) with hvn | hvn | hvn
    · refine Nat.le_trans (hlow u) (h.low_parent (hmem hu) hv ?_ huv ?_)
      · intro i hi
        rcases hmem' hi with rfl | hi
        · exact Nat.lt_irrefl _ hvn
        · exact hv' i hi
      · intro u' j' hu' huv'
        rcases hmem' hu' with rfl | hu'
        · exact absurd huv' (Nat.lt_asymm hvn)
        · exact hlast u' j' hu' huv'
    · obtain rfl := h.order_inj (h.group_seen hv) hvn
      obtain rfl := hu_eq hparent_lt
      exact hlow_parent
    · obtain rfl := hu_eq (Nat.lt_trans hparent_lt hvn)
      refine Nat.le_trans hlow_parent (h.low_parent hnode hv ?_ hvn ?_)
      · intro i hi
        rcases hmem' hi with rfl | hi
        · exact Nat.lt_irrefl _ hvn
        · exact hv' i hi
      · intro u' j' hu' _
        rcases hmem' hu' with rfl | hu'
        · exact Nat.le_refl _
        · exact Nat.le_trans (hbelow hu') (Nat.le_of_lt hparent_lt)
  case chain_open => exact h.chain_open
  case chain_closed => exact h.chain_closed
  case chain_le => exact h.chain_le
  case deepest_eq => exact h.deepest_eq

end Top

end Victauri.Plugin.Database.Search
