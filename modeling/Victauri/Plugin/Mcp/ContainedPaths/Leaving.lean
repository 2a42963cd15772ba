import Mathlib.Data.Set.Finite.Lattice
import Victauri.Plugin.Mcp.ContainedPaths.Oracle

/-!
# Where the walk leaves

If the walk down from `base` looks up an entry that is not known, what is there decides the answer:
two trees that differ in it alone are told apart.
-/

namespace Victauri.Plugin.Mcp.ContainedPaths

open FileTree FileTree.Tree
open Relation

variable {links : Nat} {t t' : Tree} {base : List Component} {canonBase : Place}

/-! ## Links on the way to `base` -/

/-- What a known link outside `base` leads through is known: the way to `base` goes through it. -/
theorem known_follow (hbase : canonicalize links t base = some canonBase) {place : Place}
    {name : String} {target : Path} (hentry : Known links t base canonBase (place ++ [name]))
    (houtside : ¬ canonBase <+: place) (hlink : t.kind (place ++ [name]) = some (.link target))
    {more : Nat} {entry : Place}
    (hlooks : t.Looks ⟨more, target.start place, target.components⟩ entry) :
    Known links t base canonBase entry := by
  have hnotDir : t.kind (place ++ [name]) ≠ some .dir := by
    rw [hlink]
    exact nofun
  have hnotPlain : ¬ t.Plain (place ++ [name]) := by
    unfold Plain
    rw [hlink]
    exact not_or.mpr ⟨nofun, nofun⟩
  obtain ⟨below, ⟨rest, rfl⟩, hway | hinside⟩ := hentry
  · have hrest : rest = [] := by
      by_contra hne
      exact hnotDir (kind_of_append hne (kind_of_looks hbase hway))
    rw [hrest, List.append_nil] at hway
    obtain ⟨w', left, rest, hrun, hstep, hend⟩ := follow_of_looks hbase hway hlink
    have happend : t.walkEnd
        (Walk.append ⟨left, target.start place, target.components⟩ rest) = some canonBase := hend
    obtain ⟨q, hq⟩ := walkEnd_of_append happend
    have hmany : t.Looks
        (Walk.withLinks ⟨left, target.start place, target.components⟩ more) entry := by
      rw [Walk.withLinks, Nat.add_comm]
      exact hlooks.withLinks left
    have hfew := (looks_withLinks hq hmany).append rest
    exact known_way ((Looks.of_step hstep hfew).of_run hrun)
  · have hplain := plain_canonBase hbase
    rcases List.prefix_or_prefix_of_prefix (List.prefix_append _ rest) hinside with habove | hbelow
    · obtain ⟨rest', hrest'⟩ := habove
      rw [← hrest'] at hplain
      by_cases hne : rest' = []
      · rw [hne, List.append_nil] at hplain
        exact absurd hplain hnotPlain
      · exact absurd (kind_of_append hne hplain.ne_none) hnotDir
    · rcases List.prefix_concat_iff.mp hbelow with heq | hprefix
      · rw [heq] at hplain
        exact absurd hplain hnotPlain
      · exact absurd hprefix houtside

/-! ## The point where it leaves -/

/-- The walk down from `base` through `front ++ name :: back` comes to stand at `place` behind `front`,
and goes on to `w`, which looks up `outside`; so it does in each tree in which what is known is the
same. -/
structure Leaves (links : Nat) (t : Tree) (base : List Component) (canonBase : Place)
    (known : Place → Prop) (front : List Component) (name : String) (place : Place) (w : Walk)
    (outside : Place) : Prop where
  same : ∀ t', AgreeOn known t t' → SameBase links base t t'
  toBase : ∀ t', AgreeOn known t t' → canonicalize links t' base = some canonBase
  toPlace : ∀ t', AgreeOn known t t' → canonicalize links t' (base ++ front) = some place
  beyond : ∀ t', AgreeOn known t t' → ∀ back,
    canonicalize links t' (base ++ (front ++ .normal name :: back)) = t'.walkEnd (w.append back)
  asks : t.Asks w outside
  unknown : ¬ known outside
  linkLeft : 0 < w.links
  stands : known w.place
  /-- Outside `base` it is the component itself that is not known. -/
  direct : ¬ canonBase <+: place → w.place = place ∧ w.rest = [.normal name]

theorem eq_normal_of_map {names : List String} {front back : List Component} {c : Component}
    (h : names.map .normal = front ++ c :: back) :
    ∃ (name : String) (backNames : List String),
      c = .normal name ∧ back = backNames.map .normal := by
  obtain ⟨frontNames, rest, rfl, rfl, hrest⟩ := List.map_eq_append_iff.mp h
  obtain ⟨name, backNames, rfl, rfl, rfl⟩ := List.map_eq_cons_iff.mp hrest
  exact ⟨name, backNames, rfl, rfl⟩

theorem exists_leaves (hbase : canonicalize links t base = some canonBase) {more : Nat}
    {names : List String} {entry : Place}
    (hlooks : t.Looks ⟨more, canonBase, names.map .normal⟩ entry)
    (hentry : ¬ Known links t base canonBase entry) :
    ∃ links' front name place w outside, ∃ backNames : List String,
      names.map .normal = front ++ .normal name :: backNames.map .normal ∧
      Leaves links' t base canonBase (Known links t base canonBase) front name place w
        outside := by
  obtain ⟨left, hrun⟩ := run_of_walkEnd hbase
  obtain ⟨v, outside, hv, hasks, hunknown⟩ := exists_leaving hlooks hentry
  have hvne : v.rest ≠ [] := by
    obtain ⟨-, name, rest, hrest, -⟩ := hasks
    rw [hrest]
    exact List.cons_ne_nil _ _
  obtain ⟨front, c, back, left', place, u, hnames, hfront, hu, hune, rfl⟩ :=
    exists_leaving_component hv hvne
  obtain ⟨name, backNames, rfl, rfl⟩ := eq_normal_of_map hnames
  have hasks' : t.Asks u outside := asks_of_append hune hasks
  have hstart : Known links t base canonBase canonBase := known_inside List.prefix_rfl
  have hplace : Known links t base canonBase place :=
    region_of_runIn known_holder known_root hstart hfront
  have hstands : Known links t base canonBase u.place :=
    @region_of_runIn t _ known_holder known_root ⟨left', place, [.normal name]⟩ u hplace hu
  refine ⟨links + (more + 1), front, name, place, u.withLinks (left + 1), outside, backNames,
    hnames, ?_⟩
  have hstart' := @runIn_of_run t (Known links t base canonBase) _ _ hrun fun _ => known_way
  -- what is known is walked in the other trees as in this one
  have hwalk : ∀ t', AgreeOn (Known links t base canonBase) t t' → ∀ {w w' : Walk},
      Known links t base canonBase w.place →
      ReflTransGen (t.StepIn (Known links t base canonBase)) w w' → ∀ n back,
      t'.walkEnd ((w.withLinks n).append back) = t'.walkEnd ((w'.withLinks n).append back) := by
    intro t' hagree w w' hknown hrunIn n back
    have hrun' := (run_of_agreeOn hagree (hagree _ hknown) hrunIn).1
    exact run_walkEnd (run_append (run_withLinks hrun' n) back)
  have hfirst : ∀ t', AgreeOn (Known links t base canonBase) t t' → ∀ back,
      canonicalize (links + (more + 1)) t' (base ++ (front ++ back)) =
        t'.walkEnd ⟨left' + (left + 1), place, back⟩ := by
    intro t' hagree back
    have hdown := hwalk t' hagree hstart hfront (left + 1) back
    have hlinks : more + (left + 1) = left + (more + 1) := by omega
    rw [Walk.withLinks, Walk.append, Walk.withLinks, Walk.append] at hdown
    dsimp only at hdown
    rw [hlinks] at hdown
    exact (hwalk t' hagree known_root hstart' (more + 1) (front ++ back)).trans hdown
  constructor
  · intro t' hagree
    exact sameBase_of_agreeOn hbase hagree (more + 1)
  · intro t' hagree
    have hend := hwalk t' hagree known_root hstart' (more + 1) []
    rw [Walk.withLinks, Walk.append, Walk.withLinks, Walk.append] at hend
    dsimp only at hend
    rw [List.append_nil, List.append_nil, walkEnd_nil] at hend
    exact hend
  · intro t' hagree
    have hend := hfirst t' hagree []
    rw [List.append_nil, walkEnd_nil] at hend
    exact hend
  · intro t' hagree back
    exact (hfirst t' hagree _).trans (hwalk t' hagree hplace hu (left + 1) back)
  · exact hasks'
  · exact hunknown
  · exact Nat.lt_of_lt_of_le (Nat.succ_pos left) (Nat.le_add_left _ _)
  · exact hstands
  · intro houtside
    rcases ReflTransGen.cases_head hu with rfl | ⟨w', hstep, hrest⟩
    · exact ⟨rfl, rfl⟩
    · obtain ⟨hstep, hin⟩ := hstep
      cases hstep with
      | enter hdir hplain =>
        exfalso
        rcases ReflTransGen.cases_head hrest with rfl | ⟨w'', hstep', -⟩
        · exact hune rfl
        · exact absurd rfl (rest_ne_nil_of_step hstep'.1)
      | @follow links' _ _ _ target hdir hlink =>
        exfalso
        have hentry := hin _ ⟨hdir, name, [], rfl, rfl⟩
        have hbelow : t.Looks ⟨links', target.start place, target.components ++ []⟩ outside :=
          ⟨u, run_of_runIn hrest, hasks'⟩
        rw [List.append_nil] at hbelow
        exact hunknown (known_follow hbase hentry houtside hlink hbelow)

/-! ## What may be there -/

section

variable {known : Place → Prop} {front : List Component} {name : String} {place : Place} {w : Walk}
  {outside : Place}

theorem Leaves.asks_of_agreeOn
    (h : Leaves links t base canonBase known front name place w outside)
    (hagree : AgreeOn known t t') : t'.Asks w outside :=
  ⟨(hagree _ h.stands).symm.trans h.asks.1, h.asks.2⟩

/-- Nothing is there: the deepest path that exists is the one before. -/
theorem Leaves.answer_missing
    (h : Leaves links t base canonBase known front name place w outside)
    (hagree : AgreeOn known t t') (hmissing : t'.kind outside = none) (back : List Component) :
    containedOrMissing links t' base (base ++ (front ++ .normal name :: back)) =
      if canonBase <+: place then .ok false else .error .traversal := by
  have hnone : ∀ more, canonicalize links t' (base ++ (front ++ .normal name :: more)) = none := by
    intro more
    rw [h.beyond t' hagree more]
    exact walkEnd_of_missing ((h.asks_of_agreeOn hagree).append more) hmissing
  have hfront : pathExists links t' (base ++ front) = true := by
    rw [pathExists, h.toPlace t' hagree]
    rfl
  have hbehind : ∀ more, more ≠ [] → more <+: .normal name :: back →
      pathExists links t' (base ++ front ++ more) = false := by
    intro more hne hprefix
    obtain ⟨c, more, rfl⟩ := List.exists_cons_of_ne_nil hne
    obtain ⟨rfl, -⟩ := List.cons_prefix_cons.mp hprefix
    rw [List.append_assoc, pathExists, hnone more]
    rfl
  have hdeepest := deepest_append hfront hbehind
  rw [List.append_assoc] at hdeepest
  have htarget : pathExists links t' (base ++ (front ++ .normal name :: back)) = false := by
    rw [pathExists, hnone back]
    rfl
  rw [containedOrMissing_eq (h.toBase t' hagree) hdeepest (h.toPlace t' hagree), htarget]

/-- The target is there: the answer is by the place it resolves to. -/
theorem Leaves.answer_exists
    (h : Leaves links t base canonBase known front name place w outside)
    (hagree : AgreeOn known t t') {back : List Component} {q : Place}
    (hend : t'.walkEnd (w.append back) = some q) :
    containedOrMissing links t' base (base ++ (front ++ .normal name :: back)) =
      if canonBase <+: q then .ok true else .error .traversal := by
  have hcanonical := (h.beyond t' hagree back).trans hend
  have htarget : pathExists links t' (base ++ (front ++ .normal name :: back)) = true := by
    rw [pathExists, hcanonical]
    rfl
  rw [containedOrMissing_eq (h.toBase t' hagree) (deepest_of_exists htarget) hcanonical, htarget]

/-- A link into directories elsewhere is there. -/
theorem Leaves.walkEnd_away
    (h : Leaves links t base canonBase known front name place w outside)
    (hagree : AgreeOn known t t') {top : String}
    (hdirs : ∀ entry : Place, entry.head? = some top → t'.kind entry = some .dir)
    {back : List Component}
    (hlink : t'.kind outside = some (.link ⟨true,
      (List.replicate (w.rest ++ back).length top).map .normal⟩)) :
    ∃ q, q.head? = some top ∧ t'.walkEnd (w.append back) = some q := by
  obtain ⟨links', stand, rest⟩ := w
  obtain ⟨hdir, name', rest', hrest, rfl⟩ := h.asks_of_agreeOn hagree
  obtain rfl : rest = .normal name' :: rest' := hrest
  obtain ⟨left, rfl⟩ : ∃ left, links' = left + 1 :=
    Nat.exists_eq_add_one_of_ne_zero (Nat.ne_of_gt h.linkLeft)
  have hstep := @Step.follow t' left stand name' (rest' ++ back) _ hdir hlink
  have hdown : ∀ above, above <+: List.replicate (Component.normal name' :: rest' ++ back).length top →
      t'.kind ([] ++ above) = some .dir := by
    intro above habove
    rw [List.nil_append]
    obtain ⟨n, rfl⟩ : ∃ n, above = List.replicate n top := by
      refine ⟨above.length, List.eq_replicate_iff.mpr ⟨rfl, ?_⟩⟩
      intro x hx
      exact List.eq_of_mem_replicate (habove.subset hx)
    cases n with
    | zero => exact t'.root
    | succ n => exact hdirs _ rfl
  have hwalk := @walkEnd_dirs t' left [] _ hdown (rest' ++ back)
  have hdeep : (rest' ++ back).length <
      ([] ++ List.replicate (Component.normal name' :: rest' ++ back).length top).length := by
    rw [List.nil_append, List.length_replicate, List.cons_append, List.length_cons]
    exact Nat.lt_succ_self _
  obtain ⟨q, hq, hend⟩ := @walkEnd_deep t' top hdirs left _ (rest' ++ back) rfl hdeep
  exact ⟨q, hq, (step_walkEnd hstep).trans (hwalk.trans hend)⟩

/-- Outside `base`, directories and a link back to `base` are there. -/
theorem Leaves.walkEnd_back
    (h : Leaves links t base canonBase known front name place w outside)
    (hagree : AgreeOn known t t') (houtside : ¬ canonBase <+: place) {backNames : List String}
    (hdirs : ∀ below, below <+: backNames → below ≠ backNames →
      t'.kind (place ++ name :: below) = some .dir)
    (hlink : t'.kind (place ++ name :: backNames) = some (.link ⟨true, canonBase.map .normal⟩)) :
    t'.walkEnd (w.append (backNames.map .normal)) = some canonBase := by
  have hdir := (h.asks_of_agreeOn hagree).1
  have hlinks := h.linkLeft
  obtain ⟨hplace, hrest⟩ := h.direct houtside
  obtain ⟨links', stand, rest⟩ := w
  obtain rfl : stand = place := hplace
  obtain rfl : rest = [.normal name] := hrest
  obtain ⟨left, rfl⟩ : ∃ left, links' = left + 1 :=
    Nat.exists_eq_add_one_of_ne_zero (Nat.ne_of_gt hlinks)
  rcases List.eq_nil_or_concat' (name :: backNames) with hnil | ⟨init, last, hinit⟩
  · cases hnil
  have hdown : ∀ above, above <+: init → t'.kind (stand ++ above) = some .dir := by
    intro above habove
    cases above with
    | nil =>
      rw [List.append_nil]
      exact hdir
    | cons name' below =>
      have hprefix : name' :: below <+: name :: backNames := by
        rw [hinit]
        exact habove.trans (List.prefix_append init [last])
      obtain ⟨rfl, hbelow⟩ := List.cons_prefix_cons.mp hprefix
      apply hdirs below hbelow
      rintro rfl
      have hle := habove.length_le
      rw [hinit, List.length_append, List.length_singleton] at hle
      omega
  have hlast : t'.kind (stand ++ init ++ [last]) = some (.link ⟨true, canonBase.map .normal⟩) := by
    rw [List.append_assoc, ← hinit]
    exact hlink
  have hnames : Walk.append ⟨left + 1, stand, [.normal name]⟩ (backNames.map .normal) =
      ⟨left + 1, stand, init.map .normal ++ [.normal last]⟩ := by
    have hmap := congrArg (List.map Component.normal) hinit
    rw [List.map_append] at hmap
    exact congrArg (Walk.mk (left + 1) stand) hmap
  have hstep := @Step.follow t' left (stand ++ init) last [] _
    (hdown init List.prefix_rfl) hlast
  rw [hnames, walkEnd_dirs hdown]
  refine (step_walkEnd hstep).trans ?_
  change t'.walkEnd ⟨left, [], canonBase.map .normal ++ []⟩ = _
  rw [List.append_nil]
  have hplain := plain_canonBase (h.toBase t' hagree)
  exact resolve_names hplain.ne_none fun _ => hplain

end

/-! ## Trees told apart -/

section

variable {known : Place → Prop} {front : List Component} {name : String} {place : Place} {w : Walk}
  {outside : Place} (hroot : known [])
  (hholder : ∀ place name, known (place ++ [name]) → known place)

include hroot hholder

theorem exists_missing (t : Tree) (hunknown : ¬ known outside) :
    ∃ t', AgreeOn known t t' ∧ t'.kind outside = none :=
  ⟨t.withOutside known (fun _ => none) hroot hholder fun _ _ _ h => absurd rfl h,
    fun _ hentry => (if_pos hentry).symm, if_neg hunknown⟩

theorem exists_away (hdir : t.kind place = some .dir) (hplace : known place)
    (hunknown : ¬ known (place ++ [name])) {top : String}
    (htop : ∀ entry, known entry → entry.head? ≠ some top)
    (hname : (place ++ [name]).head? ≠ some top) (target : Path) :
    ∃ t', AgreeOn known t t' ∧ t'.kind (place ++ [name]) = some (.link target) ∧
      ∀ entry : Place, entry.head? = some top → t'.kind entry = some .dir := by
  let elsewhere : Place → Option Kind := fun entry =>
    if entry = place ++ [name] then some (.link target)
    else if entry.head? = some top then some .dir else none
  refine ⟨t.withOutside known elsewhere hroot hholder ?_, ?_, ?_, ?_⟩
  · intro at' name' hentry hthere
    by_cases hlink : at' ++ [name'] = place ++ [name]
    · obtain ⟨rfl, -⟩ := List.append_inj' hlink rfl
      exact Or.inl ⟨hplace, hdir⟩
    · change (if _ then _ else _) ≠ none at hthere
      rw [if_neg hlink] at hthere
      have hhead : (at' ++ [name']).head? = some top := by
        by_contra hne
        exact hthere (if_neg hne)
      cases at' with
      | nil => exact Or.inl ⟨hroot, t.root⟩
      | cons first at' =>
        have hfirst : (first :: at' : Place).head? = some top := hhead
        have hat' : ¬ known (first :: at') := fun hknown => htop _ hknown hfirst
        have hne : first :: at' ≠ place ++ [name] := by
          intro heq
          rw [heq] at hfirst
          exact hname hfirst
        exact Or.inr ⟨hat', (if_neg hne).trans (if_pos hfirst)⟩
  · exact fun _ hentry => (if_pos hentry).symm
  · exact (if_neg hunknown).trans (if_pos rfl)
  · intro entry hhead
    have hentry : ¬ known entry := fun hknown => htop entry hknown hhead
    have hne : entry ≠ place ++ [name] := by
      rintro rfl
      exact hname hhead
    exact (if_neg hentry).trans ((if_neg hne).trans (if_pos hhead))

theorem exists_back (hdir : t.kind place = some .dir) (hplace : known place)
    (hunknown : ¬ known (place ++ [name])) (backNames : List String) (target : Path) :
    ∃ t', AgreeOn known t t' ∧
      (∀ below, below <+: backNames → below ≠ backNames →
        t'.kind (place ++ name :: below) = some .dir) ∧
      t'.kind (place ++ name :: backNames) = some (.link target) := by
  let elsewhere : Place → Option Kind := fun entry =>
    if entry = place ++ name :: backNames then some (.link target)
    else if place ++ [name] <+: entry ∧ entry <+: place ++ name :: backNames then some .dir
    else none
  have hbelow : ∀ below, ¬ known (place ++ name :: below) := by
    intro below hknown
    apply hunknown
    induction below using List.reverseRecOn with
    | nil => exact hknown
    | append_singleton below last ih =>
      apply ih
      rw [← List.cons_append, ← List.append_assoc] at hknown
      exact hholder _ last hknown
  have hstart : ∀ below, place ++ [name] <+: place ++ name :: below :=
    fun below => ⟨below, by rw [List.append_assoc]; rfl⟩
  refine ⟨t.withOutside known elsewhere hroot hholder ?_, ?_, ?_, ?_⟩
  · intro at' name' hentry hthere
    have hbetween : place ++ [name] <+: at' ++ [name'] ∧
        at' ++ [name'] <+: place ++ name :: backNames := by
      by_cases hlink : at' ++ [name'] = place ++ name :: backNames
      · rw [hlink]
        exact ⟨hstart backNames, List.prefix_rfl⟩
      · by_contra hnot
        exact hthere ((if_neg hlink).trans (if_neg hnot))
    obtain ⟨habove, hbelow'⟩ := hbetween
    rcases List.prefix_concat_iff.mp habove with heq | hprefix
    · obtain ⟨rfl, -⟩ := List.append_inj' heq rfl
      exact Or.inl ⟨hplace, hdir⟩
    · obtain ⟨below, rfl⟩ := hprefix
      have hat : place ++ [name] ++ below = place ++ name :: below := by
        rw [List.append_assoc]
        rfl
      rw [hat] at hbelow' ⊢
      have hproper : place ++ name :: below ≠ place ++ name :: backNames := by
        intro heq
        have hle := hbelow'.length_le
        rw [← heq, List.length_append, List.length_singleton] at hle
        omega
      have hinside := (List.prefix_append _ [name']).trans hbelow'
      exact Or.inr ⟨hbelow below,
        (if_neg hproper).trans (if_pos ⟨hstart below, hinside⟩)⟩
  · exact fun _ hentry => (if_pos hentry).symm
  · intro below hprefix hne
    have hproper : place ++ name :: below ≠ place ++ name :: backNames := by
      intro heq
      exact hne (List.cons.inj (List.append_cancel_left heq)).2
    have hinside : place ++ name :: below <+: place ++ name :: backNames := by
      obtain ⟨rest, rfl⟩ := hprefix
      exact ⟨rest, by rw [List.append_assoc, List.cons_append]⟩
    exact (if_neg (hbelow below)).trans
      ((if_neg hproper).trans (if_pos ⟨hstart below, hinside⟩))
  · exact (if_neg (hbelow backNames)).trans (if_pos rfl)

end

/-- A name that nothing known is below, and this entry neither. -/
theorem exists_fresh (hne : canonBase ≠ []) (outside : Place) :
    ∃ top, (∀ entry, Known links t base canonBase entry → entry.head? ≠ some top) ∧
      outside.head? ≠ some top := by
  have hlooks : {entry | t.Looks ⟨links, [], base⟩ entry}.Finite := finite_looks _
  have hheads := ((hlooks.image List.head?).insert canonBase.head?).insert outside.head?
  have hnames := hheads.preimage (Option.some_injective String).injOn
  obtain ⟨top, htop⟩ := hnames.exists_notMem
  rw [Set.mem_preimage, Set.mem_insert_iff, Set.mem_insert_iff, Set.mem_image] at htop
  obtain ⟨houtside, hrest⟩ := not_or.mp htop
  obtain ⟨hcanonBase, hway⟩ := not_or.mp hrest
  refine ⟨top, ?_, fun h => houtside h.symm⟩
  rintro entry ⟨below, hprefix, hbelow⟩ hhead
  have hsame : ∀ {front whole : Place}, front <+: whole → front ≠ [] →
      whole.head? = front.head? := by
    rintro front whole ⟨rest, rfl⟩ hfront
    obtain ⟨first, front, rfl⟩ := List.exists_cons_of_ne_nil hfront
    rfl
  have hentry : entry ≠ [] := by
    rintro rfl
    cases hhead
  have hbelowHead := (hsame hprefix hentry).trans hhead
  rcases hbelow with hlook | hinside
  · exact hway ⟨below, hlook, hbelowHead⟩
  · exact hcanonBase (hbelowHead.symm.trans (hsame hinside hne))

theorem staysKnown_of_same {names : List String}
    (h : ∀ links t', SameBase links base t t' →
      containedOrMissing links t' base (base ++ names.map .normal) =
        containedOrMissing links t base (base ++ names.map .normal)) :
    StaysKnown t base names := by
  intro links canonBase hbase more entry hlooks
  by_contra hentry
  obtain ⟨links', front, name, place, w, outside, backNames, hnames, hleaves⟩ :=
    exists_leaves hbase hlooks hentry
  rw [hnames] at h
  -- nothing is where the walk leaves, in one tree
  obtain ⟨tMissing, hagree, hmissing⟩ :=
    exists_missing (t := t) known_root known_holder hleaves.unknown
  have hfirst := h links' tMissing (hleaves.same tMissing hagree)
  rw [hleaves.answer_missing hagree hmissing] at hfirst
  by_cases hinside : canonBase <+: place
  · -- in the other a link leads on, into directories elsewhere
    have hne : canonBase ≠ [] := by
      rintro rfl
      exact hentry (known_inside List.nil_prefix)
    obtain ⟨hdir, name', rest, -, houtside⟩ := hleaves.asks
    obtain ⟨top, htop, hfresh⟩ := @exists_fresh links t base canonBase hne outside
    have hunknown := hleaves.unknown
    rw [houtside] at hunknown hfresh
    obtain ⟨tAway, hagree', hlink, hdirs⟩ := exists_away known_root known_holder hdir
      hleaves.stands hunknown htop hfresh ⟨true,
        (List.replicate (w.rest ++ backNames.map Component.normal).length top).map .normal⟩
    rw [← houtside] at hlink
    obtain ⟨q, hq, hend⟩ := hleaves.walkEnd_away hagree' hdirs hlink
    have hsecond := h links' tAway (hleaves.same tAway hagree')
    have hnot : ¬ canonBase <+: q := by
      intro hprefix
      obtain ⟨first, canonBase, rfl⟩ := List.exists_cons_of_ne_nil hne
      obtain ⟨rest', rfl⟩ := hprefix
      exact htop _ (known_inside List.prefix_rfl) hq
    rw [hleaves.answer_exists hagree' hend, if_neg hnot] at hsecond
    rw [if_pos hinside] at hfirst
    cases hfirst.trans hsecond.symm
  · -- in the other a link leads back to `base`
    obtain ⟨hstand, hrest⟩ := hleaves.direct hinside
    obtain ⟨hdir, name', rest', hcons, houtside⟩ := hleaves.asks
    obtain ⟨hname, -⟩ := List.cons.inj (hrest.symm.trans hcons)
    have hunknown := hleaves.unknown
    have hstands := hleaves.stands
    rw [houtside, hstand, ← Component.normal.inj hname] at hunknown
    rw [hstand] at hdir hstands
    obtain ⟨tBack, hagree', hdirs, hlink⟩ := exists_back known_root known_holder hdir hstands
      hunknown backNames ⟨true, canonBase.map .normal⟩
    have hend := hleaves.walkEnd_back hagree' hinside hdirs hlink
    have hsecond := h links' tBack (hleaves.same tBack hagree')
    rw [hleaves.answer_exists hagree' hend, if_pos List.prefix_rfl] at hsecond
    rw [if_neg hinside] at hfirst
    cases hfirst.trans hsecond.symm

/-- The answer is the same in all trees equal inside `base`, on systems that follow any number of
links, if and only if the walk down from it looks up nothing else.  What it says to exist is inside
`base` in any case. -/
theorem containedOrMissing_tells_nothing_iff (t : Tree) (base : List Component)
    (names : List String) :
    (∀ links,
      (∀ t', SameBase links base t t' →
        containedOrMissing links t' base (base ++ names.map .normal) =
          containedOrMissing links t base (base ++ names.map .normal)) ∧
      (containedOrMissing links t base (base ++ names.map .normal) = .ok true →
        ∃ canonBase canonical, canonicalize links t base = some canonBase ∧
          canonicalize links t (base ++ names.map .normal) = some canonical ∧
          canonBase <+: canonical)) ↔
      StaysKnown t base names := by
  constructor
  · intro h
    exact staysKnown_of_same fun links t' hsame => (h links).1 t' hsame
  · intro h links
    exact ⟨fun t' hsame => containedOrMissing_of_staysKnown h hsame, inside_of_ok_true⟩

/-! ## A link out of `base` -/

/-- `/base/link`, which leads to `/secret`, and `/secret` if it was made. -/
def linkTree (made : Bool) : Tree where
  kind place :=
    if place = [] ∨ place = ["base"] then some .dir
    else if place = ["base", "link"] then some (.link ⟨true, [.normal "secret"]⟩)
    else if place = ["secret"] ∧ made = true then some .file
    else none
  root := rfl
  holder place name h := by
    have hcases : place ++ [name] = ["base"] ∨ place ++ [name] = ["base", "link"] ∨
        place ++ [name] = ["secret"] := by
      by_contra hnot
      obtain ⟨hbase, hrest⟩ := not_or.mp hnot
      obtain ⟨hlink, hsecret⟩ := not_or.mp hrest
      have hnil : place ++ [name] ≠ [] := List.append_ne_nil_of_right_ne_nil _ (List.cons_ne_nil _ _)
      rw [if_neg (not_or.mpr ⟨hnil, hbase⟩), if_neg hlink, if_neg fun hand => hsecret hand.1] at h
      exact h rfl
    have hholder : ∀ whole, place ++ [name] = whole → place = whole.dropLast := by
      rintro whole rfl
      rw [List.dropLast_concat]
    apply if_pos
    rcases hcases with h | h | h
    · exact Or.inl (hholder _ h)
    · exact Or.inr (hholder _ h)
    · exact Or.inl (hholder _ h)

/-- The answer about `link` tells whether `/secret` is there. -/
theorem containedOrMissing_tells_secret :
    SameBase maxLinks [.normal "base"] (linkTree false) (linkTree true) ∧
      containedOrMissing maxLinks (linkTree false) [.normal "base"]
        ([.normal "base"] ++ ["link"].map .normal) = .ok false ∧
      containedOrMissing maxLinks (linkTree true) [.normal "base"]
        ([.normal "base"] ++ ["link"].map .normal) = .error .traversal := by
  have hsame : ∀ entry : Place, entry ≠ ["secret"] →
      (linkTree false).kind entry = (linkTree true).kind entry := by
    intro entry hentry
    have hfalse : ¬ (entry = ["secret"] ∧ false = true) := fun h => hentry h.1
    have htrue : ¬ (entry = ["secret"] ∧ true = true) := fun h => hentry h.1
    unfold linkTree
    dsimp only
    rw [if_neg hfalse, if_neg htrue]
  refine ⟨⟨?_, ?_⟩, rfl, rfl⟩
  · intro entry hlooks
    apply hsame
    rintro rfl
    rcases looks_cases hlooks with ⟨-, name, rest, hcons, hentry⟩ | ⟨w', hstep, hrest⟩
    · obtain ⟨hname, -⟩ := List.cons.inj hcons
      rw [← Component.normal.inj hname] at hentry
      exact absurd hentry (by decide)
    · cases hstep with
      | enter => exact not_looks_nil hrest
      | follow _ hlink => cases hlink
  · intro canonBase hbase entry hinside
    apply hsame
    rintro rfl
    obtain rfl : ["base"] = canonBase := Option.some.inj hbase
    exact absurd hinside (by decide)

end Victauri.Plugin.Mcp.ContainedPaths
