import Victauri.Plugin.Database.Tarjan

/-!
# The deepest chain is the heaviest path of components

When the search closes the group of a node, the members are the node's component and
what they depend on is closed, so charging the component on top of the heaviest of
those chains is the longest-path recursion.  At the end every node is closed.
-/

namespace Victauri.Plugin.Database

open Relation Victauri.Core Victauri.Library.Condensation

namespace Search

variable {n : Nat} {own : Fin n → Nat} {deps : Fin n → List (Fin n)} {s : Search n}

/-- Cutting a group off at a node takes the node and what was seen after it. -/
theorem splitOff_spec {order : Fin n → Nat} {node : Fin n} {group : List (Fin n)}
    (hsorted : group.Pairwise fun v w => order w < order v) (hnode : node ∈ group) :
    (∀ v, v ∈ (splitOff node group).1 ↔ v ∈ group ∧ order node ≤ order v) ∧
      (∀ v, v ∈ (splitOff node group).2 ↔ v ∈ group ∧ order v < order node) ∧
      (splitOff node group).1.Nodup ∧
      (splitOff node group).2.Pairwise fun v w => order w < order v := by
  induction group with
  | nil => cases hnode
  | cons m ms ih =>
      rw [List.pairwise_cons] at hsorted
      obtain ⟨hm, hsorted⟩ := hsorted
      by_cases hmn : m = node
      · subst hmn
        simp only [splitOff, if_true]
        refine ⟨fun v => ?_, fun v => ?_, by simp, hsorted⟩
        · rw [List.mem_singleton, List.mem_cons]
          constructor
          · rintro rfl
            exact ⟨.inl rfl, Nat.le_refl _⟩
          · rintro ⟨hv | hv, hle⟩
            · exact hv
            · exact absurd hle (Nat.not_le_of_lt (hm v hv))
        · rw [List.mem_cons]
          constructor
          · intro hv
            exact ⟨.inr hv, hm v hv⟩
          · rintro ⟨rfl | hv, hlt⟩
            · exact absurd hlt (Nat.lt_irrefl _)
            · exact hv
      · have hnode' : node ∈ ms := (List.mem_cons.mp hnode).resolve_left (Ne.symm hmn)
        obtain ⟨hmembers, hrest, hnodup, hpairwise⟩ := ih hsorted hnode'
        simp only [splitOff, if_neg hmn]
        refine ⟨fun v => ?_, fun v => ?_, ?_, hpairwise⟩
        · rw [List.mem_cons, hmembers, List.mem_cons]
          constructor
          · rintro (rfl | ⟨hv, hle⟩)
            · exact ⟨.inl rfl, Nat.le_of_lt (hm node hnode')⟩
            · exact ⟨.inr hv, hle⟩
          · rintro ⟨rfl | hv, hle⟩
            · exact .inl rfl
            · exact .inr ⟨hv, hle⟩
        · rw [hrest, List.mem_cons]
          constructor
          · rintro ⟨hv, hlt⟩
            exact ⟨.inr hv, hlt⟩
          · rintro ⟨rfl | hv, hlt⟩
            · exact absurd hlt (Nat.lt_asymm (hm node hnode'))
            · exact ⟨hv, hlt⟩
        · refine List.nodup_cons.mpr ⟨fun hmem => ?_, hnodup⟩
          exact Nat.lt_irrefl _ (hm m ((hmembers m).mp hmem).1)

/-! ## The members of a group that closes -/

theorem Inv.closed_reach (h : Inv own deps s) {v w : Fin n} (hv : Closed s v)
    (hreach : ReflTransGen (Edge deps) v w) : Closed s w := by
  induction hreach with
  | refl => exact hv
  | tail _ hedge ih => exact h.closed_edge ih hedge

section Close

variable {node : Fin n} {next : Nat} {rest : List (Fin n × Nat)}

/-- What was seen after the top is not on the stack. -/
theorem Inv.not_on_stack (h : Inv own deps s) (hstack : s.stack = (node, next) :: rest)
    {v : Fin n} (hv : s.order node < s.order v) (i : Nat) : (v, i) ∉ s.stack := by
  intro hi
  rw [hstack] at hi
  rcases List.mem_cons.mp hi with hi | hi
  · rw [(Prod.mk.inj hi).1] at hv
    exact Nat.lt_irrefl _ hv
  · exact Nat.lt_asymm hv (h.rest_lt hstack hi)

/-- No member of the top's group reaches an open node seen before the top. -/
theorem Inv.low_ge (h : Inv own deps s) (hstack : s.stack = (node, next) :: rest)
    (hroot : s.low node = s.order node) {v : Fin n} (hv : v ∈ s.group)
    (hle : s.order node ≤ s.order v) : s.order node ≤ s.low v := by
  rcases Nat.lt_or_eq_of_le hle with hlt | heq
  · rw [← hroot]
    refine h.low_parent (by rw [hstack]; exact List.mem_cons_self) hv
      (h.not_on_stack hstack hlt) hlt fun u j hu _ => ?_
    rw [hstack] at hu
    rcases List.mem_cons.mp hu with hu | hu
    · rw [(Prod.mk.inj hu).1]
    · exact Nat.le_of_lt (h.rest_lt hstack hu)
  · obtain rfl := h.order_inj (h.group_seen hv) heq.symm
    exact Nat.le_of_eq hroot.symm

/-- The members depend on each other and on closed nodes. -/
theorem Inv.member_edge (h : Inv own deps s) (hstack : s.stack = (node, next) :: rest)
    (hdone : (deps node)[next]? = none) (hroot : s.low node = s.order node) {v w : Fin n}
    (hv : v ∈ s.group) (hle : s.order node ≤ s.order v) (hw : w ∈ deps v) :
    w ∈ s.group ∧ s.order node ≤ s.order w ∨ Closed s w := by
  have hlooked : Looked deps s.stack v w := by
    refine ⟨hw, fun i hi => ?_⟩
    rcases Nat.lt_or_eq_of_le hle with hlt | heq
    · exact absurd hi (h.not_on_stack hstack hlt i)
    · obtain rfl := h.order_inj (h.group_seen hv) heq.symm
      rw [hstack] at hi
      rcases List.mem_cons.mp hi with hi | hi
      · rw [(Prod.mk.inj hi).2, List.take_of_length_le (List.getElem?_eq_none_iff.mp hdone)]
        exact hw
      · exact absurd hi (h.top_not_mem_rest hstack i)
  by_cases hopen : w ∈ s.group
  · have hlow := h.low_looked hv hlooked hopen
    exact .inl ⟨hopen, Nat.le_trans (h.low_ge hstack hroot hv hle) hlow⟩
  · exact .inr ⟨h.looked_seen (h.group_seen hv) hlooked, hopen⟩

/-- Every member reaches the top: `low` leads to earlier and earlier members. -/
theorem Inv.member_reaches (h : Inv own deps s) (hstack : s.stack = (node, next) :: rest)
    (hroot : s.low node = s.order node) {v : Fin n} (hv : v ∈ s.group)
    (hle : s.order node ≤ s.order v) : ReflTransGen (Edge deps) v node := by
  induction hk : s.order v using Nat.strong_induction_on generalizing v with
  | _ k ih =>
      subst hk
      rcases Nat.lt_or_eq_of_le hle with hlt | heq
      · obtain ⟨u, hu, hord, hreach⟩ := h.low_reached hv
        have hsmaller := h.low_lt hv (h.not_on_stack hstack hlt)
        have hge := h.low_ge hstack hroot hv hle
        rw [← hord] at hsmaller hge
        exact hreach.trans (ih (s.order u) hsmaller hu hge rfl)
      · obtain rfl := h.order_inj (h.group_seen hv) heq.symm
        exact .refl

/-- The open nodes from the top on are its component. -/
theorem Inv.members_component (h : Inv own deps s) (hstack : s.stack = (node, next) :: rest)
    (hdone : (deps node)[next]? = none) (hroot : s.low node = s.order node) {v : Fin n} :
    component (Edge deps) v = component (Edge deps) node ↔
      v ∈ s.group ∧ s.order node ≤ s.order v := by
  rw [component_eq_iff]
  have hnode : node ∈ s.group := h.top_open hstack
  constructor
  · rintro ⟨hvn, hnv⟩
    -- A path from the top stays among the members or ends in closed nodes.
    have hstays : v ∈ s.group ∧ s.order node ≤ s.order v ∨ Closed s v := by
      induction hnv with
      | refl => exact .inl ⟨hnode, Nat.le_refl _⟩
      | @tail b c hnb hedge ih =>
          rcases ih (.head hedge hvn) with ⟨hb, hle⟩ | hclosed
          · exact h.member_edge hstack hdone hroot hb hle hedge
          · exact .inr (h.closed_edge hclosed hedge)
    refine hstays.resolve_right fun hclosed => ?_
    exact (h.closed_reach hclosed hvn).2 hnode
  · rintro ⟨hv, hle⟩
    have hdown := h.descends (by rw [hstack]; exact List.mem_cons_self) hv hle
    exact ⟨h.member_reaches hstack hroot hv hle, hdown⟩

theorem foldl_saturatingAdd (own : Fin n → Nat) (l : List (Fin n)) (init : Nat) :
    l.foldl (fun sum m => Core.saturatingAdd sum (own m)) (min init Core.usizeMax) =
      min (init + (l.map own).sum) Core.usizeMax := by
  induction l generalizing init with
  | nil => simp
  | cons m l ih =>
      have hadd : Core.saturatingAdd (min init Core.usizeMax) (own m) =
          min (init + own m) Core.usizeMax := by
        simp only [Core.saturatingAdd]
        omega
      rw [List.foldl_cons, hadd, ih, List.map_cons, List.sum_cons, Nat.add_assoc]

/-- The members' costs, summed in whatever order, are the component's. -/
theorem foldl_members (own : Fin n → Nat) {members : List (Fin n)} (hnodup : members.Nodup) {C : Component (Edge deps)}
    (hmembers : ∀ v, v ∈ members ↔ component (Edge deps) v = C) :
    members.foldl (fun sum m => Core.saturatingAdd sum (own m)) 0 = groupCost own C := by
  classical
  have hfold := foldl_saturatingAdd own members 0
  rw [Nat.zero_min, Nat.zero_add] at hfold
  have hset : Finset.univ.filter (fun v => component (Edge deps) v = C) = members.toFinset := by
    ext v
    rw [Finset.mem_filter, List.mem_toFinset, hmembers]
    exact ⟨And.right, fun hv => ⟨Finset.mem_univ v, hv⟩⟩
  rw [hfold, groupCost, componentCost]
  congr 1
  rw [← List.sum_toFinset own hnodup, ← hset]

theorem max?_getD_eq (l : List Nat) : l.max?.getD 0 = 0 ∨ l.max?.getD 0 ∈ l := by
  cases hmax : l.max? with
  | none => exact .inl rfl
  | some a => exact .inr (List.max?_mem hmax)

theorem monotone_saturatingAdd (a : Nat) : Monotone (Core.saturatingAdd a) := by
  intro b c hbc
  simp only [Core.saturatingAdd]
  omega

/-- What closing charges is the heaviest path from the component. -/
theorem Inv.heaviest_total (h : Inv own deps s) (hstack : s.stack = (node, next) :: rest)
    (hdone : (deps node)[next]? = none) (hroot : s.low node = s.order node)
    {members : List (Fin n)} (hmembers : ∀ v, v ∈ members ↔
      v ∈ s.group ∧ s.order node ≤ s.order v) :
    Heaviest own deps node (Core.saturatingAdd (groupCost own (component (Edge deps) node))
      (((members.flatMap deps).map s.chain).max?.getD 0)) := by
  have hcomponent {v : Fin n} : component (Edge deps) v = component (Edge deps) node ↔
      v ∈ members := by
    rw [hmembers]
    exact h.members_component hstack hdone hroot
  have hclosed {v : Fin n} (hv : Closed s v) : v ∉ members :=
    fun hmem => hv.2 ((hmembers v).mp hmem).1
  apply isGreatest_pathsFrom monotone_saturatingAdd
  · rintro D ⟨hne, a, b, ha, rfl, hedge⟩ q hq
    have ha := hcomponent.mp ha
    have hb : Closed s b := by
      obtain ⟨hopen, hle⟩ := (hmembers a).mp ha
      refine (h.member_edge hstack hdone hroot hopen hle hedge).resolve_left fun hb => hne ?_
      exact (hcomponent.mpr ((hmembers b).mpr hb)).symm
    have hmem : s.chain b ∈ (members.flatMap deps).map s.chain :=
      List.mem_map_of_mem (List.mem_flatMap.mpr ⟨a, ha, hedge⟩)
    exact Nat.le_trans ((h.chain_closed hb).2 ⟨q, hq, rfl⟩) (List.le_max?_getD_of_mem hmem)
  · rcases max?_getD_eq ((members.flatMap deps).map s.chain) with hzero | hmem
    · exact .inl hzero
    · obtain ⟨b, hb, hchain⟩ := List.mem_map.mp hmem
      obtain ⟨a, ha, hedge⟩ := List.mem_flatMap.mp hb
      by_cases hclosed' : Closed s b
      · obtain ⟨q, hq, hcost⟩ := (h.chain_closed hclosed').1
        refine .inr ⟨component (Edge deps) b, ⟨?_, a, b, hcomponent.mpr ha, rfl, hedge⟩, q, hq,
          hcost.trans hchain⟩
        exact fun heq => hclosed hclosed' (hcomponent.mp heq.symm)
      · exact .inl (hchain ▸ h.chain_open hclosed')

/-- The invariant after the top was left and its group closed. -/
theorem Inv.close (h : Inv own deps s) (hstack : s.stack = (node, next) :: rest)
    (hdone : (deps node)[next]? = none) (hroot : s.low node = s.order node) :
    Inv own deps (Search.close own deps { s with stack := rest } node) := by
  have hnode : node ∈ s.group := h.top_open hstack
  obtain ⟨hmembers, hstay, hnodup, hpairwise⟩ := splitOff_spec h.group_sorted hnode
  have hcost := foldl_members own hnodup fun v =>
    (hmembers v).trans (h.members_component hstack hdone hroot).symm
  have htotal := h.heaviest_total hstack hdone hroot hmembers
  rw [← hcost] at htotal
  unfold Search.close
  generalize splitOff node s.group = split at *
  obtain ⟨members, stay⟩ := split
  simp only at hmembers hstay hnodup hpairwise htotal ⊢
  generalize Core.saturatingAdd (members.foldl (fun sum m => Core.saturatingAdd sum (own m)) 0)
    (((members.flatMap deps).map s.chain).max?.getD 0) = total at htotal ⊢
  have hsplit (v : Fin n) : v ∈ s.group ↔ v ∈ members ∨ v ∈ stay := by
    rw [hmembers, hstay]
    constructor
    · intro hv
      exact (Nat.lt_or_ge (s.order v) (s.order node)).symm.imp (⟨hv, ·⟩) (⟨hv, ·⟩)
    · rintro (hv | hv)
      · exact hv.1
      · exact hv.1
  have hdisjoint {v : Fin n} (hv : v ∈ stay) : v ∉ members := by
    rw [hmembers]
    rintro ⟨-, hle⟩
    exact Nat.lt_irrefl _ (Nat.lt_of_lt_of_le ((hstay v).mp hv).2 hle)
  have hopen {v : Fin n} (hv : v ∈ stay) : v ∈ s.group := ((hstay v).mp hv).1
  have hmem {v : Fin n} {i : Nat} (hv : (v, i) ∈ rest) : (v, i) ∈ s.stack := by
    rw [hstack]
    exact List.mem_cons_of_mem _ hv
  have hmem' {v : Fin n} {i : Nat} (hv : v ∈ stay) (hi : (v, i) ∈ s.stack) : (v, i) ∈ rest := by
    rw [hstack] at hi
    rcases List.mem_cons.mp hi with hi | hi
    · rw [(Prod.mk.inj hi).1] at hv
      exact absurd ((hstay node).mp hv).2 (Nat.lt_irrefl _)
    · exact hi
  have hrest {v : Fin n} {i : Nat} (hv : (v, i) ∈ rest) : v ∈ stay :=
    (hstay v).mpr ⟨h.stack_open (hmem hv), h.rest_lt hstack hv⟩
  -- What is closed now was closed before, or is a member.
  have hclosed (v : Fin n) : s.order v ≠ 0 ∧ v ∉ stay ↔ Closed s v ∨ v ∈ members := by
    rw [Closed, hsplit]
    constructor
    · rintro ⟨hseen, hv⟩
      by_cases hvm : v ∈ members
      · exact .inr hvm
      · exact .inl ⟨hseen, fun hor => hor.elim hvm hv⟩
    · rintro (⟨hseen, hv⟩ | hv)
      · exact ⟨hseen, fun hs => hv (.inr hs)⟩
      · exact ⟨h.group_seen ((hsplit v).mpr (.inl hv)), fun hs => hdisjoint hs hv⟩
  have hclosed_not {v : Fin n} (hv : Closed s v) : v ∉ members :=
    fun hvm => hv.2 ((hsplit v).mpr (.inl hvm))
  constructor
  case order_le => exact h.order_le
  case order_inj => exact h.order_inj
  case isOpen_iff =>
    intro v
    by_cases hv : v ∈ members
    · simp only [hv, if_true, Bool.false_eq_true, false_iff]
      exact fun hs => hdisjoint hs hv
    · simp only [hv, if_false]
      rw [h.isOpen_iff, hsplit]
      exact or_iff_right hv
  case group_seen => exact fun hv => h.group_seen (hopen hv)
  case group_sorted => exact hpairwise
  case stack_open => exact fun hv => hrest hv
  case stack_sorted =>
    have hsorted := h.stack_sorted
    rw [hstack, List.pairwise_cons] at hsorted
    exact hsorted.2
  case covered =>
    intro v hv
    obtain ⟨u, i, hu, hle⟩ := h.covered (hopen hv)
    refine ⟨u, i, hmem' ((hstay u).mpr ⟨h.stack_open hu, ?_⟩) hu, hle⟩
    exact Nat.lt_of_le_of_lt hle ((hstay v).mp hv).2
  case descends => exact fun hu hv => h.descends (hmem hu) (hopen hv)
  case looked_seen => exact fun hv hl => h.looked_seen hv (Inv.looked_of_rest hstack hdone hl)
  case closed_edge =>
    intro v w hv hw
    rcases (hclosed v).mp hv with hv | hv
    · exact (hclosed w).mpr (.inl (h.closed_edge hv hw))
    · obtain ⟨hvopen, hle⟩ := (hmembers v).mp hv
      refine (hclosed w).mpr ?_
      rcases h.member_edge hstack hdone hroot hvopen hle hw with hw | hw
      · exact .inr ((hmembers w).mpr hw)
      · exact .inl hw
  case low_le => exact fun hv => h.low_le (hopen hv)
  case low_looked =>
    intro v w hv hl hw
    exact h.low_looked (hopen hv) (Inv.looked_of_rest hstack hdone hl) (hopen hw)
  case low_reached =>
    intro v hv
    obtain ⟨u, hu, hord, hreach⟩ := h.low_reached (hopen hv)
    refine ⟨u, (hstay u).mpr ⟨hu, ?_⟩, hord, hreach⟩
    rw [hord]
    exact Nat.lt_of_le_of_lt (h.low_le (hopen hv)) ((hstay v).mp hv).2
  case low_lt => exact fun hv hv' => h.low_lt (hopen hv) fun i hi => hv' i (hmem' hv hi)
  case low_parent =>
    intro u i v hu hv hv' huv hlast
    refine h.low_parent (hmem hu) (hopen hv) (fun j hj => hv' j (hmem' hv hj)) huv ?_
    intro u' j hu' hlt
    refine hlast u' j (hmem' ((hstay u').mpr ⟨h.stack_open hu', ?_⟩) hu') hlt
    exact Nat.lt_trans hlt ((hstay v).mp hv).2
  case chain_open =>
    intro v hv
    have hnot := mt (hclosed v).mpr hv
    rw [not_or] at hnot
    simp only [hnot.2, if_false]
    exact h.chain_open hnot.1
  case chain_closed =>
    intro v hv
    rcases (hclosed v).mp hv with hv | hv
    · simp only [hclosed_not hv, if_false]
      exact h.chain_closed hv
    · simp only [hv, if_true]
      have hsame := (h.members_component hstack hdone hroot).mpr ((hmembers v).mp hv)
      rw [Heaviest, hsame]
      exact htotal
  case chain_le =>
    intro v
    by_cases hv : v ∈ members
    · simp only [hv, if_true]
      exact Nat.le_max_right _ _
    · simp only [hv, if_false]
      exact Nat.le_trans (h.chain_le v) (Nat.le_max_left _ _)
  case deepest_eq =>
    have hself : node ∈ members := (hmembers node).mpr ⟨hnode, Nat.le_refl _⟩
    rcases Nat.le_total s.deepest total with hle | hle
    · rw [Nat.max_eq_right hle]
      refine .inr ⟨node, (hclosed node).mpr (.inr hself), ?_⟩
      simp only [hself, if_true]
    · rw [Nat.max_eq_left hle]
      refine h.deepest_eq.imp_right ?_
      rintro ⟨v, hv, hdeepest⟩
      refine ⟨v, (hclosed v).mpr (.inl hv), ?_⟩
      simp only [hclosed_not hv, if_false]
      exact hdeepest

end Close

/-! ## The whole search -/

theorem Inv.step (h : Inv own deps s) {s' : Search n} (hstep : s.step own deps = some s') :
    Inv own deps s' := by
  rw [Search.step] at hstep
  split at hstep
  · cases hstep
  · rename_i node next rest hstack
    split at hstep
    · rename_i dep hdep
      have hnode : node ∈ s.group := h.top_open hstack
      simp only at hstep
      split at hstep
      · rename_i hunseen
        obtain rfl := Option.some.inj hstep
        exact h.push_dep hstack hdep hunseen
      · rename_i hseen
        split at hstep
        · rename_i hisOpen
          obtain rfl := Option.some.inj hstep
          have hopen : dep ∈ s.group := (h.isOpen_iff dep).mp hisOpen
          refine h.advance hstack hdep hseen (Nat.min_le_left _ _)
            (fun _ => Nat.min_le_right _ _) ?_
          rcases Nat.le_total (s.low node) (s.order dep) with hle | hle
          · rw [Nat.min_eq_left hle]
            exact h.low_reached hnode
          · rw [Nat.min_eq_right hle]
            exact ⟨dep, hopen, rfl, .single (List.mem_of_getElem? hdep)⟩
        · rename_i hclosed
          obtain rfl := Option.some.inj hstep
          have hdep' : dep ∉ s.group := mt (h.isOpen_iff dep).mpr hclosed
          have hadvance := h.advance hstack hdep hseen (Nat.le_refl _)
            (fun hopen => absurd hopen hdep') (h.low_reached hnode)
          rwa [Function.update_eq_self] at hadvance
    · rename_i hdone
      -- The parent's `low` goes down only if the group stays open.
      by_cases hroot : s.low node = s.order node
      · have hclose := h.close hstack hdone hroot
        cases rest with
        | nil =>
            simp only [hroot, ne_eq, not_true, if_false] at hstep
            obtain rfl := Option.some.inj hstep
            exact hclose
        | cons e rest =>
            have hparent_lt : s.order e.1 < s.order node := h.rest_lt hstack List.mem_cons_self
            have hparent : s.low e.1 ≤ s.order e.1 :=
              h.low_le (h.stack_open (by rw [hstack]; exact List.mem_cons_of_mem _ List.mem_cons_self))
            have hmin : min (s.low e.1) (s.order node) = s.low e.1 := by omega
            simp only [hmin, Function.update_eq_self, hroot, ne_eq, not_true, if_false] at hstep
            obtain rfl := Option.some.inj hstep
            exact hclose
      · have hlt : s.low node < s.order node :=
          Nat.lt_of_le_of_ne (h.low_le (h.top_open hstack)) hroot
        obtain ⟨parent, j, rest', rfl⟩ := h.exists_parent hstack hlt
        have hne : node ≠ parent := by
          rintro rfl
          exact h.top_not_mem_rest hstack j List.mem_cons_self
        simp only [Function.update_of_ne hne, ne_eq, hroot, not_false_eq_true, if_true] at hstep
        obtain rfl := Option.some.inj hstep
        exact h.leave hdone hlt hstack

/-- A seen node stays seen. -/
theorem step_seen {s' : Search n} (hstep : s.step own deps = some s') {v : Fin n}
    (hv : s.order v ≠ 0) : s'.order v ≠ 0 := by
  rw [Search.step] at hstep
  split at hstep
  · cases hstep
  · split at hstep
    · rename_i dep _
      simp only at hstep
      split at hstep
      · obtain rfl := Option.some.inj hstep
        by_cases hvd : v = dep
        · subst hvd
          simp
        · rw [push_order_of_ne _ _ hvd]
          exact hv
      · split at hstep <;> (obtain rfl := Option.some.inj hstep; exact hv)
    · simp only at hstep
      split at hstep <;> split at hstep <;> (obtain rfl := Option.some.inj hstep; exact hv)

/-- The loop ends with an empty stack, keeps the invariant and what was seen. -/
theorem loop_spec (h : Inv own deps s) :
    Inv own deps (loop own deps s) ∧ (loop own deps s).stack = [] ∧
      ∀ v, s.order v ≠ 0 → (loop own deps s).order v ≠ 0 := by
  fun_induction loop own deps s with
  | case1 s hnone =>
      refine ⟨h, ?_, fun _ hv => hv⟩
      rw [Search.step] at hnone
      split at hnone
      · assumption
      · split at hnone
        · simp only at hnone
          split at hnone
          · cases hnone
          · split at hnone <;> cases hnone
        · simp only at hnone
          split at hnone <;> split at hnone <;> cases hnone
  | case2 s s' hstep ih =>
      obtain ⟨hinv, hstack, hseen⟩ := ih (h.step hstep)
      exact ⟨hinv, hstack, fun v hv => hseen v (step_seen hstep hv)⟩

/-- The invariant between two searches. -/
theorem searchFrom_spec (h : Inv own deps s) (hstack : s.stack = []) (root : Fin n) :
    Inv own deps (searchFrom own deps s root) ∧ (searchFrom own deps s root).stack = [] ∧
      (searchFrom own deps s root).order root ≠ 0 ∧
      ∀ v, s.order v ≠ 0 → (searchFrom own deps s root).order v ≠ 0 := by
  unfold searchFrom
  split
  · rename_i hseen
    exact ⟨h, hstack, hseen, fun _ hv => hv⟩
  · rename_i hunseen
    rw [not_not] at hunseen
    obtain ⟨hinv, hempty, hseen⟩ := loop_spec (h.push_root hstack hunseen)
    refine ⟨hinv, hempty, hseen root (by simp), fun v hv => hseen v ?_⟩
    have hne : v ≠ root := by
      rintro rfl
      exact hv hunseen
    exact (push_order_of_ne s root hne).symm ▸ hv

theorem foldl_searchFrom_spec (h : Inv own deps s) (hstack : s.stack = []) (roots : List (Fin n)) :
    Inv own deps (roots.foldl (searchFrom own deps) s) ∧
      (roots.foldl (searchFrom own deps) s).stack = [] ∧
      (∀ v ∈ roots, (roots.foldl (searchFrom own deps) s).order v ≠ 0) ∧
      ∀ v, s.order v ≠ 0 → (roots.foldl (searchFrom own deps) s).order v ≠ 0 := by
  induction roots generalizing s with
  | nil => exact ⟨h, hstack, fun _ hv => absurd hv List.not_mem_nil, fun _ hv => hv⟩
  | cons root roots ih =>
      obtain ⟨hinv, hempty, hroot, hseen⟩ := searchFrom_spec h hstack root
      obtain ⟨hinv', hempty', hroots, hseen'⟩ := ih hinv hempty
      refine ⟨hinv', hempty', fun v hv => ?_, fun v hv => hseen' v (hseen v hv)⟩
      rcases List.mem_cons.mp hv with rfl | hv
      · exact hseen' v hroot
      · exact hroots v hv

/-- The search ends with the heaviest path of components. -/
theorem searchAll_greatest (own : Fin n → Nat) (deps : Fin n → List (Fin n)) :
    IsGreatest
      (pathCost Core.saturatingAdd (groupCost own) '' {p | p.IsChain (Next (Edge deps))})
      (searchAll own deps).deepest := by
  obtain ⟨hinv, hstack, hseen, -⟩ :=
    foldl_searchFrom_spec (inv_init : Inv own deps _) rfl (List.finRange n)
  change Inv own deps (searchAll own deps) at hinv
  have hclosed (v : Fin n) : Closed (searchAll own deps) v := by
    refine ⟨hseen v (List.mem_finRange v), fun hopen => ?_⟩
    obtain ⟨u, i, hu, -⟩ := hinv.covered hopen
    change (u, i) ∈ ((List.finRange n).foldl (searchFrom own deps) (init n)).stack at hu
    rw [hstack] at hu
    cases hu
  constructor
  · rcases hinv.deepest_eq with hzero | ⟨v, hv, hdeepest⟩
    · exact ⟨[], .nil, hzero.symm⟩
    · obtain ⟨p, hp, hcost⟩ := (hinv.chain_closed hv).1
      exact ⟨p, hp.2, hcost.trans hdeepest.symm⟩
  · rintro w ⟨p, hp, rfl⟩
    cases p with
    | nil => exact Nat.zero_le _
    | cons C p =>
        obtain ⟨v, rfl⟩ := Quotient.exists_rep C
        have hle := (hinv.chain_closed (hclosed v)).2 ⟨_, ⟨rfl, hp⟩, rfl⟩
        exact Nat.le_trans hle (hinv.chain_le v)

end Search

/-! ## The views -/

/-- View `a` mentions view `b`, in one of the definitions of its name. -/
def Mentions (views : List ViewDef) (a b : Node views) : Prop :=
  ∃ v ∈ views, v.name = (viewNames views)[a] ∧ (viewNames views)[b] ∈ v.mentions

/-- A view costs the most any definition of its name costs. -/
def viewCost (views : List ViewDef) (a : Node views) : Nat :=
  ((views.filter fun v => v.name == (viewNames views)[a]).map fun v => v.cost).foldl max 0

/-- Every name is a node once, and only the names of views are. -/
theorem viewNames_spec (views : List ViewDef) :
    (viewNames views).Nodup ∧ ∀ name, name ∈ viewNames views ↔ ∃ v ∈ views, v.name = name := by
  unfold viewNames
  induction views using List.reverseRecOn with
  | nil => simp
  | append_singleton views v ih =>
      obtain ⟨hnodup, hmem⟩ := ih
      rw [List.foldl_concat]
      split
      · rename_i hold
        refine ⟨hnodup, fun name => ?_⟩
        rw [hmem]
        constructor
        · rintro ⟨w, hw, rfl⟩
          exact ⟨w, List.mem_append_left _ hw, rfl⟩
        · rintro ⟨w, hw, rfl⟩
          rcases List.mem_append.mp hw with hw | hw
          · exact ⟨w, hw, rfl⟩
          · rw [List.mem_singleton.mp hw]
            exact (hmem _).mp hold
      · rename_i hnew
        refine ⟨List.nodup_append.mpr ⟨hnodup, by simp, ?_⟩, fun name => ?_⟩
        · rintro a ha b hb rfl
          exact hnew (List.mem_singleton.mp hb ▸ ha)
        · simp only [List.mem_append, hmem, List.mem_singleton, or_and_right, exists_or,
            exists_eq_left, @eq_comm _ name]

theorem index_eq_some_iff {views : List ViewDef} {name : String} {a : Node views} :
    index views name = some a ↔ (viewNames views)[a] = name := by
  unfold index
  constructor
  · intro h
    split at h
    · obtain rfl := Option.some.inj h
      simp
    · cases h
  · rintro rfl
    have hidx := (viewNames_spec views).1.idxOf_getElem a.1 a.2
    simp [hidx]

theorem mem_extend {views : List ViewDef} {deps : Node views → List (Node views)} {v : ViewDef}
    {a b : Node views} :
    b ∈ extend views deps v a ↔
      b ∈ deps a ∨ v.name = (viewNames views)[a] ∧ (viewNames views)[b] ∈ v.mentions := by
  have hmentions : b ∈ v.mentions.filterMap (index views) ↔
      (viewNames views)[b] ∈ v.mentions := by
    simp only [List.mem_filterMap, index_eq_some_iff, exists_eq_right']
  rw [@eq_comm _ v.name, ← index_eq_some_iff]
  cases hindex : index views v.name with
  | none => simp only [extend, hindex, reduceCtorEq, false_and, or_false]
  | some node =>
      by_cases ha : a = node
      · subst ha
        simp only [extend, hindex, Function.update_self, List.mem_append, hmentions, true_and]
      · have hne : ¬ some node = some a := fun h => ha (Option.some.inj h).symm
        simp only [extend, hindex, Function.update_of_ne ha, hne, false_and, or_false]

/-- The dependencies of a node are the nodes it mentions. -/
theorem mem_dependencies {views : List ViewDef} {a b : Node views} :
    b ∈ dependencies views a ↔ Mentions views a b := by
  have hfold (l : List ViewDef) (deps : Node views → List (Node views)) :
      b ∈ l.foldl (extend views) deps a ↔
        b ∈ deps a ∨
          ∃ v ∈ l, v.name = (viewNames views)[a] ∧ (viewNames views)[b] ∈ v.mentions := by
    induction l generalizing deps with
    | nil => simp
    | cons v l ih => rw [List.foldl_cons, ih, mem_extend, List.exists_mem_cons_iff, or_assoc]
  rw [dependencies, hfold]
  exact or_iff_right List.not_mem_nil

theorem charge_apply (views : List ViewDef) (own : Node views → Nat) (v : ViewDef)
    (a : Node views) :
    charge views own v a =
      if v.name = (viewNames views)[a] then max (own a) v.cost else own a := by
  have hname : v.name = (viewNames views)[a] ↔ index views v.name = some a := by
    rw [index_eq_some_iff, eq_comm]
  simp only [hname]
  cases hindex : index views v.name with
  | none => simp only [charge, hindex, reduceCtorEq, if_false]
  | some node =>
      by_cases ha : a = node
      · subst ha
        simp only [charge, hindex, Function.update_self, if_true]
      · have hne : ¬ some node = some a := fun h => ha (Option.some.inj h).symm
        simp only [charge, hindex, Function.update_of_ne ha, if_neg hne]

/-- A node is charged the largest cost of its definitions. -/
theorem ownCosts_eq (views : List ViewDef) : ownCosts views = viewCost views := by
  funext a
  have hfold (l : List ViewDef) (own : Node views → Nat) :
      l.foldl (charge views) own a =
        ((l.filter fun v => v.name == (viewNames views)[a]).map fun v => v.cost).foldl max
          (own a) := by
    induction l generalizing own with
    | nil => rfl
    | cons v l ih =>
        rw [List.foldl_cons, ih, charge_apply, List.filter_cons]
        split_ifs with ha hb hb
        · rfl
        · exact absurd (beq_iff_eq.mpr ha) hb
        · exact absurd (beq_iff_eq.mp hb) ha
        · rfl
  exact hfold views fun _ => 0

/-! ## What the function returns -/

/-- Saturating sums are sums cut off at `usize::MAX`. -/
theorem pathCost_saturatingAdd {E : V → V → Prop} (cost : Component E → Nat)
    (p : List (Component E)) :
    pathCost Core.saturatingAdd cost p = min ((p.map cost).sum) Core.usizeMax := by
  induction p with
  | nil => rfl
  | cons C p ih =>
      have hcons : pathCost Core.saturatingAdd cost (C :: p) =
          Core.saturatingAdd (cost C) (pathCost Core.saturatingAdd cost p) := rfl
      rw [hcons, ih, List.map_cons, List.sum_cons, Core.saturatingAdd]
      omega

theorem min_sum_groupCost {n : Nat} {E : Fin n → Fin n → Prop} (cost : Fin n → Nat)
    (p : List (Component E)) :
    min ((p.map (Search.groupCost cost)).sum) Core.usizeMax =
      min ((p.map (componentCost cost)).sum) Core.usizeMax := by
  induction p with
  | nil => rfl
  | cons C p ih =>
      simp only [List.map_cons, List.sum_cons, Search.groupCost] at ih ⊢
      omega

/-- `deepest_view_chain` is the heaviest path of components of the graph of mentions,
with saturating sums; so it is at least the cost of any simple chain of views. -/
theorem deepestViewChain_greatest (views : List ViewDef) :
    IsGreatest
        (pathCost Core.saturatingAdd (Search.groupCost (viewCost views)) ''
          {p | p.IsChain (Next (Mentions views))})
        (deepestViewChain views) ∧
      ∀ l : List (Node views), l.IsChain (Mentions views) → l.Nodup →
        min ((l.map (viewCost views)).sum) Core.usizeMax ≤ deepestViewChain views := by
  have hedge : Search.Edge (dependencies views) = Mentions views := by
    funext a b
    exact propext mem_dependencies
  have hdeepest : (Search.searchAll (viewCost views) (dependencies views)).deepest =
      deepestViewChain views := by
    rw [deepestViewChain, ownCosts_eq]
  have hgreatest := Search.searchAll_greatest (viewCost views) (dependencies views)
  rw [hedge, hdeepest] at hgreatest
  refine ⟨hgreatest, fun l hchain hnodup => ?_⟩
  cases l with
  | nil => simp
  | cons v l =>
      obtain ⟨p, hp, hsum⟩ := exists_path_of_simple (viewCost views) hchain hnodup
      have hle := hgreatest.2 ⟨p, hp.2, rfl⟩
      rw [pathCost_saturatingAdd, min_sum_groupCost] at hle
      omega

/-- Two views that mention each other, and a third that one of them mentions. -/
theorem deepestViewChain_greatest_of_cycle :
    9 ≤ deepestViewChain
      [{ name := "a", mentions := ["b"], cost := 2 },
        { name := "b", mentions := ["a", "c"], cost := 3 },
        { name := "c", mentions := [], cost := 4 }] := by
  have hchain := (deepestViewChain_greatest
    [{ name := "a", mentions := ["b"], cost := 2 },
      { name := "b", mentions := ["a", "c"], cost := 3 },
      { name := "c", mentions := [], cost := 4 }]).2
    [⟨0, by decide⟩, ⟨1, by decide⟩, ⟨2, by decide⟩]
  refine hchain ?_ (by decide)
  refine .cons_cons ⟨_, .head _, rfl, ?_⟩ (.cons_cons ⟨_, .tail _ (.head _), rfl, ?_⟩ (.singleton _))
  · decide
  · decide

/-- Two views that cost `usize::MAX` each, one mentioning the other. -/
def costlyViews : List ViewDef :=
  [{ name := "a", mentions := ["b"], cost := Core.usizeMax },
    { name := "b", mentions := [], cost := Core.usizeMax }]

/-- A component costs at least what one of its views does. -/
theorem le_groupCost {n : Nat} {E : Fin n → Fin n → Prop} {cost : Fin n → Nat} {v : Fin n}
    (h : Core.usizeMax ≤ cost v) : Search.groupCost cost (component E v) = Core.usizeMax := by
  classical
  refine Nat.min_eq_right (Nat.le_trans h ?_)
  refine Finset.single_le_sum (f := cost) (fun _ _ => Nat.zero_le _) ?_
  exact Finset.mem_filter.mpr ⟨Finset.mem_univ v, rfl⟩

/-- Their chain costs twice that, which no `usize` is. -/
theorem deepestViewChain_saturates :
    ¬ ∀ views : List ViewDef,
      IsGreatest
        (pathCost (· + ·) (Search.groupCost (viewCost views)) ''
          {p | p.IsChain (Next (Mentions views))})
        (deepestViewChain views) := by
  intro h
  have hsmall : deepestViewChain costlyViews ≤ Core.usizeMax := by
    obtain ⟨p, -, hp⟩ := (deepestViewChain_greatest costlyViews).1.1
    rw [← hp, pathCost_saturatingAdd]
    exact Nat.min_le_right _ _
  let a : Node costlyViews := ⟨0, by decide⟩
  let b : Node costlyViews := ⟨1, by decide⟩
  have hnone (c : Node costlyViews) : ¬ Mentions costlyViews b c := by
    rintro ⟨v, hv, hname, hmem⟩
    have hb : (viewNames costlyViews)[b] = "b" := rfl
    rw [hb] at hname
    simp only [costlyViews, List.mem_cons, List.not_mem_nil, or_false] at hv
    rcases hv with rfl | rfl
    · simp at hname
    · simp at hmem
  have hnext : Next (Mentions costlyViews) (component _ a) (component _ b) := by
    refine ⟨fun heq => ?_, a, b, rfl, rfl, ?_⟩
    · obtain ⟨-, hba⟩ := (component_eq_iff _).mp heq
      rcases Relation.ReflTransGen.cases_head hba with hba | ⟨c, hc, -⟩
      · simp [a, b] at hba
      · exact hnone c hc
    · exact ⟨_, List.mem_cons_self, rfl, List.mem_cons_self⟩
  have hpath := (h costlyViews).2 ⟨[component _ a, component _ b], by simpa using hnext, rfl⟩
  have ha : Search.groupCost (viewCost costlyViews) (component (Mentions costlyViews) a) =
      Core.usizeMax := le_groupCost (by decide)
  have hb : Search.groupCost (viewCost costlyViews) (component (Mentions costlyViews) b) =
      Core.usizeMax := le_groupCost (by decide)
  simp only [pathCost, List.foldr_cons, List.foldr_nil, ha, hb] at hpath
  have hpos : 0 < Core.usizeMax := by decide
  omega

end Victauri.Plugin.Database
