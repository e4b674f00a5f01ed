import Workflow.Proofs.Scope.SitePaths

/-!
# Where contested names come from

A name hangs on a race because some race in front of the place has a branch
that binds it.  The analysis does not keep track of that race: it carries sets
of names through every join.  Here each name of these sets is traced back, to a
race that is over before the place is reached and that stands in front of it in
the text of the program.
-/

namespace Workflow

/-- The site is a race, and some call in its branches binds the name. -/
def Site.Contests (site : Site) (name : String) : Prop :=
  ∃ branches, site.node = .fanout branches .firstToFinish ∧
    name ∈ targetsOf (Node.callsList branches)

theorem Site.Contests.mem_targetsOf
    {race : Site} {name : String} (contests : race.Contests name) :
    name ∈ targetsOf race.node.calls := by
  obtain ⟨branches, isRace, bound⟩ := contests
  rw [isRace]
  exact bound

namespace Node

mutual

/-- The sites of a tree in the order in which they are written: the line of a
fanout comes behind the functions of its branches, and the rules of an
orchestrator behind those of its routes. -/
def written (path : Path) (before : List Node) (node : Node) : List Site :=
  match node with
  | .call _ => [⟨path, before, node⟩]
  | .sequence steps => ⟨path, before, node⟩ :: writtenSteps path 0 before steps
  | .branch _ whenTrue none =>
      ⟨path, before, node⟩ :: written (.field path "if_true") before whenTrue
  | .branch _ whenTrue (some otherwise) =>
      ⟨path, before, node⟩ ::
        (written (.field path "if_true") before whenTrue ++
          written (.field path "if_false") before otherwise)
  | .fanout branches _ =>
      writtenBranches path 0 before branches ++ [⟨path, before, node⟩]
  | .dispatch routes _ _ =>
      writtenRoutes (.field path "sub_workflows") before routes ++
        [⟨path, before, node⟩]
termination_by structural node

def writtenSteps (path : Path) (position : Nat) (before : List Node) :
    List Node → List Site
  | [] => []
  | node :: rest =>
      written (path.item "steps" position) before node ++
        writtenSteps path (position + 1) (before ++ [node]) rest
termination_by structural steps => steps

def writtenBranches (path : Path) (position : Nat) (before : List Node) :
    List Node → List Site
  | [] => []
  | node :: rest =>
      written (path.item "branches" position) before node ++
        writtenBranches path (position + 1) before rest
termination_by structural branches => branches

def writtenRoutes (path : Path) (before : List Node) :
    List (String × Node) → List Site
  | [] => []
  | (name, node) :: rest =>
      written (.field path name) before node ++ writtenRoutes path before rest
termination_by structural routes => routes

end

mutual

/-- Every site is written once. -/
theorem written_perm_sites (path : Path) (before : List Node) (node : Node) :
    (node.written path before).Perm (node.sites path before) := by
  unfold written sites
  cases node with
  | call invocation => exact .refl _
  | sequence steps =>
      exact (writtenSteps_perm_sites path 0 before steps).cons _
  | branch condition whenTrue otherwise =>
      have first := written_perm_sites (.field path "if_true") before whenTrue
      cases otherwise with
      | none => exact first.cons _
      | some otherwise =>
          exact (first.append
            (written_perm_sites (.field path "if_false") before
              otherwise)).cons _
  | fanout branches join =>
      exact List.perm_append_comm.trans
        ((writtenBranches_perm_sites path 0 before branches).cons _)
  | dispatch routes rules fallback =>
      exact List.perm_append_comm.trans
        ((writtenRoutes_perm_sites (.field path "sub_workflows") before
            routes).cons _)
termination_by structural node

theorem writtenSteps_perm_sites
    (path : Path) (position : Nat) (before steps : List Node) :
    (writtenSteps path position before steps).Perm
      (sitesSteps path position before steps) := by
  cases steps with
  | nil => exact .refl _
  | cons node rest =>
      exact (written_perm_sites (path.item "steps" position) before
          node).append
        (writtenSteps_perm_sites path (position + 1) (before ++ [node]) rest)
termination_by structural steps

theorem writtenBranches_perm_sites
    (path : Path) (position : Nat) (before branches : List Node) :
    (writtenBranches path position before branches).Perm
      (sitesBranches path position before branches) := by
  cases branches with
  | nil => exact .refl _
  | cons node rest =>
      exact (written_perm_sites (path.item "branches" position) before
          node).append
        (writtenBranches_perm_sites path (position + 1) before rest)
termination_by structural branches

theorem writtenRoutes_perm_sites (path : Path) (before : List Node)
    (routes : List (String × Node)) :
    (writtenRoutes path before routes).Perm
      (sitesRoutes path before routes) := by
  cases routes with
  | nil => exact .refl _
  | cons route rest =>
      obtain ⟨name, node⟩ := route
      exact (written_perm_sites (.field path name) before node).append
        (writtenRoutes_perm_sites path before rest)
termination_by structural routes

end

/-- When the node at a path is over, so is the race inside of it, if it was run
at all.  A race is over before all of its branches are, so what lies inside of
them does not count. -/
inductive EndsWith (race : Site) : Path → Node → Prop where
  | self : EndsWith race race.path race.node
  | step {path : Path} {steps : List Node} {position : Nat} {step : Node}
      (taken : steps[position]? = some step)
      (inside : EndsWith race (path.item "steps" position) step) :
      EndsWith race path (.sequence steps)
  | whenTrue {path : Path} {condition : String} {whenTrue : Node}
      {otherwise : Option Node}
      (inside : EndsWith race (.field path "if_true") whenTrue) :
      EndsWith race path (.branch condition whenTrue otherwise)
  | otherwise {path : Path} {condition : String} {whenTrue otherwise : Node}
      (inside : EndsWith race (.field path "if_false") otherwise) :
      EndsWith race path (.branch condition whenTrue (some otherwise))
  | branch {path : Path} {branches : List Node} {position : Nat}
      {branch : Node} (taken : branches[position]? = some branch)
      (inside : EndsWith race (path.item "branches" position) branch) :
      EndsWith race path (.fanout branches .waitForAll)
  | route {path : Path} {routes : List (String × Node)} {rules : List Rule}
      {fallback : Option String} {name : String} {node : Node}
      (taken : (name, node) ∈ routes)
      (inside :
        EndsWith race (.field (.field path "sub_workflows") name) node) :
      EndsWith race path (.dispatch routes rules fallback)

/-- The race is over before a place in the tree is reached: in a sequence
around both of them, it ends with a step in front of the one that the place
lies in. -/
inductive EndsBefore (race : Site) (place : Path) : Path → Node → Prop where
  | earlier {path : Path} {steps : List Node} {position later : Nat}
      {step : Node} (taken : steps[position]? = some step)
      (front : position < later)
      (ends : EndsWith race (path.item "steps" position) step)
      (below : (path.item "steps" later).Below place) :
      EndsBefore race place path (.sequence steps)
  | step {path : Path} {steps : List Node} {position : Nat} {step : Node}
      (taken : steps[position]? = some step)
      (inside : EndsBefore race place (path.item "steps" position) step) :
      EndsBefore race place path (.sequence steps)
  | whenTrue {path : Path} {condition : String} {whenTrue : Node}
      {otherwise : Option Node}
      (inside : EndsBefore race place (.field path "if_true") whenTrue) :
      EndsBefore race place path (.branch condition whenTrue otherwise)
  | otherwise {path : Path} {condition : String} {whenTrue otherwise : Node}
      (inside : EndsBefore race place (.field path "if_false") otherwise) :
      EndsBefore race place path (.branch condition whenTrue (some otherwise))
  | branch {path : Path} {branches : List Node} {join : JoinPolicy}
      {position : Nat} {branch : Node}
      (taken : branches[position]? = some branch)
      (inside : EndsBefore race place (path.item "branches" position) branch) :
      EndsBefore race place path (.fanout branches join)
  | route {path : Path} {routes : List (String × Node)} {rules : List Rule}
      {fallback : Option String} {name : String} {node : Node}
      (taken : (name, node) ∈ routes)
      (inside : EndsBefore race place
        (.field (.field path "sub_workflows") name) node) :
      EndsBefore race place path (.dispatch routes rules fallback)

theorem mem_targetsOf_callsList {nodes : List Node} {name : String} :
    name ∈ targetsOf (callsList nodes) ↔
      ∃ node ∈ nodes, name ∈ targetsOf node.calls := by
  induction nodes with
  | nil => simp [callsList]
  | cons node rest induction =>
      simp only [callsList, mem_targetsOf_append, induction, List.mem_cons,
        exists_eq_or_imp]

theorem mem_targetsOf_callsRoutes
    {routes : List (String × Node)} {name : String} :
    name ∈ targetsOf (callsRoutes routes) ↔
      ∃ route ∈ routes, name ∈ targetsOf route.2.calls := by
  induction routes with
  | nil => simp [callsRoutes]
  | cons route rest induction =>
      simp only [callsRoutes, mem_targetsOf_append, induction, List.mem_cons,
        exists_eq_or_imp]

mutual

/-- What a tree binds on every way, some call of it binds. -/
theorem mem_targetsOf_of_mem_must
    {name : String} (node : Node) (bound : name ∈ node.must) :
    name ∈ targetsOf node.calls := by
  cases node with
  | call invocation =>
      rw [must, NameSet.mem_ofList, Option.mem_toList] at bound
      rw [calls, targetsOf, NameSet.mem_ofList, List.mem_filterMap]
      exact ⟨invocation, List.mem_singleton.mpr rfl, bound⟩
  | sequence steps => exact mem_targetsOf_of_mem_mustAny steps bound
  | branch condition whenTrue otherwise =>
      cases otherwise with
      | none => exact absurd bound (NameSet.not_mem_empty name)
      | some otherwise =>
          have inTrue := (NameSet.mem_inter.mp bound).1
          exact mem_targetsOf_append.mpr
            (.inl (mem_targetsOf_of_mem_must whenTrue inTrue))
  | fanout branches join => exact mem_targetsOf_of_mem_mustAny branches bound
  | dispatch routes rules fallback =>
      exact absurd bound (NameSet.not_mem_empty name)
termination_by structural node

theorem mem_targetsOf_of_mem_mustAny {name : String} (nodes : List Node)
    (bound : name ∈ mustAny nodes) : name ∈ targetsOf (callsList nodes) := by
  cases nodes with
  | nil => exact absurd bound (NameSet.not_mem_empty name)
  | cons node rest =>
      rcases NameSet.mem_union.mp bound with here | later
      · exact mem_targetsOf_append.mpr
          (.inl (mem_targetsOf_of_mem_must node here))
      · exact mem_targetsOf_append.mpr
          (.inr (mem_targetsOf_of_mem_mustAny rest later))
termination_by structural nodes

end

/-- A race inside of a node binds no more than the node. -/
theorem EndsWith.mem_targetsOf
    {race : Site} {path : Path} {node : Node} {name : String}
    (ends : EndsWith race path node)
    (bound : name ∈ targetsOf race.node.calls) :
    name ∈ targetsOf node.calls := by
  induction ends with
  | self => exact bound
  | step taken _ induction =>
      exact mem_targetsOf_callsList.mpr
        ⟨_, List.mem_of_getElem? taken, induction⟩
  | @whenTrue _ _ _ otherwise _ induction =>
      cases otherwise with
      | none => exact induction
      | some otherwise => exact mem_targetsOf_append.mpr (.inl induction)
  | otherwise _ induction => exact mem_targetsOf_append.mpr (.inr induction)
  | branch taken _ induction =>
      exact mem_targetsOf_callsList.mpr
        ⟨_, List.mem_of_getElem? taken, induction⟩
  | route taken _ induction =>
      exact mem_targetsOf_callsRoutes.mpr ⟨_, taken, induction⟩

variable {name : String}

mutual

/-- A name that hangs on a race behind a tree did so before, or one of the
races of the tree that end with it binds the name. -/
theorem exists_race_of_mem_cancellable
    (scope : Scope) (path : Path) (before : List Node) (node : Node)
    (hangs : name ∈ (node.flow scope path).outcome.cancellable) :
    name ∈ scope.cancellable ∨
      ∃ race ∈ node.written path before,
        race.Contests name ∧ EndsWith race path node := by
  cases node with
  | call invocation =>
      left
      obtain ⟨tool, params, output⟩ := invocation
      cases output with
      | none => exact hangs
      | some target => exact (Scope.mem_cancellable_bind.mp hangs).1
  | sequence steps =>
      refine (exists_race_of_mem_cancellableSteps scope path 0 before steps
          hangs).imp_right ?_
      rintro ⟨race, member, contests, offset, step, taken, ends⟩
      rw [Nat.zero_add] at ends
      exact ⟨race, List.mem_cons_of_mem _ member, contests, .step taken ends⟩
  | branch condition whenTrue otherwise =>
      cases otherwise with
      | none => exact .inl hangs
      | some otherwise =>
          rcases (Scope.mem_cancellable_joinArms.mp hangs).1 with
            inTrue | inFalse
          · refine (exists_race_of_mem_cancellable scope
                (.field path "if_true") before whenTrue inTrue).imp_right ?_
            rintro ⟨race, member, contests, ends⟩
            exact ⟨race,
              List.mem_cons_of_mem _ (List.mem_append_left _ member), contests,
              .whenTrue ends⟩
          · refine (exists_race_of_mem_cancellable scope
                (.field path "if_false") before otherwise inFalse).imp_right ?_
            rintro ⟨race, member, contests, ends⟩
            exact ⟨race,
              List.mem_cons_of_mem _ (List.mem_append_right _ member),
              contests, .otherwise ends⟩
  | fanout branches join =>
      cases join with
      | waitForAll =>
          rcases Scope.mem_cancellable_unionAll.mp hangs with before | inBranch
          · exact .inl before
          · refine (exists_race_of_mem_cancellableBranches scope path 0 before
                branches inBranch).imp_right ?_
            rintro ⟨race, member, contests, offset, branch, taken, ends⟩
            rw [Nat.zero_add] at ends
            exact ⟨race, List.mem_append_left _ member, contests,
              .branch taken ends⟩
      | firstToFinish =>
          -- a race inside of a branch is no matter: the outer race binds all
          -- that it binds
          have outer : name ∈ targetsOf (callsList branches) →
              name ∈ scope.cancellable ∨
              ∃ race ∈ written path before (.fanout branches .firstToFinish),
                race.Contests name ∧
                EndsWith race path (.fanout branches .firstToFinish) :=
            fun bound => .inr ⟨⟨path, before, .fanout branches .firstToFinish⟩,
              List.mem_append_right _ (List.mem_singleton.mpr rfl),
              ⟨branches, rfl, bound⟩, .self⟩
          rcases Scope.mem_cancellable_joinFanout_firstToFinish.mp hangs with
            (already | inBranch) | ⟨fresh, bound, _⟩
          · exact .inl already
          · rcases exists_race_of_mem_cancellableBranches scope path 0 before
              branches inBranch with
              already | ⟨race, _, contests, offset, branch, taken, ends⟩
            · exact .inl already
            · exact outer (mem_targetsOf_callsList.mpr ⟨branch,
                  List.mem_of_getElem? taken,
                  ends.mem_targetsOf contests.mem_targetsOf⟩)
          · rcases (exists_mem_guaranteed_flowBranches scope path 0
                branches).mp bound with
              ⟨already, _⟩ | inBranch
            · exact absurd already fresh
            · exact outer (mem_targetsOf_of_mem_mustAny branches inBranch)
  | dispatch routes rules fallback =>
      left
      rw [flow, Scope.cancellable_foldl_skippable] at hangs
      exact hangs
termination_by structural node

theorem exists_race_of_mem_cancellableSteps
    (scope : Scope) (path : Path) (position : Nat) (before steps : List Node)
    (hangs : name ∈
      (flowSteps scope path position steps).outcome.cancellable) :
    name ∈ scope.cancellable ∨
      ∃ race ∈ writtenSteps path position before steps, race.Contests name ∧
        ∃ offset step, steps[offset]? = some step ∧
          EndsWith race (path.item "steps" (position + offset)) step := by
  cases steps with
  | nil => exact .inl hangs
  | cons node rest =>
      rcases exists_race_of_mem_cancellableSteps _ path (position + 1)
        (before ++ [node]) rest hangs with
        inFirst | ⟨race, member, contests, offset, step, taken, ends⟩
      · refine (exists_race_of_mem_cancellable scope
            (path.item "steps" position) before node inFirst).imp_right ?_
        rintro ⟨race, member, contests, ends⟩
        exact ⟨race, List.mem_append_left _ member, contests, 0, node, rfl,
          ends⟩
      · right
        rw [Nat.add_assoc, Nat.add_comm 1] at ends
        exact ⟨race, List.mem_append_right _ member, contests, offset + 1,
          step, taken, ends⟩
termination_by structural steps

theorem exists_race_of_mem_cancellableBranches
    (scope : Scope) (path : Path) (position : Nat)
    (before branches : List Node)
    (hangs : ∃ branch ∈ (flowBranches scope path position branches).outcome,
      name ∈ branch.cancellable) :
    name ∈ scope.cancellable ∨
      ∃ race ∈ writtenBranches path position before branches,
        race.Contests name ∧
        ∃ offset branch, branches[offset]? = some branch ∧
          EndsWith race (path.item "branches" (position + offset)) branch := by
  cases branches with
  | nil =>
      obtain ⟨_, member, _⟩ := hangs
      cases member
  | cons node rest =>
      obtain ⟨branch, member, hangs⟩ := hangs
      rcases List.mem_cons.mp member with rfl | inRest
      · refine (exists_race_of_mem_cancellable scope
            (path.item "branches" position) before node hangs).imp_right ?_
        rintro ⟨race, member, contests, ends⟩
        exact ⟨race, List.mem_append_left _ member, contests, 0, node, rfl,
          ends⟩
      · refine (exists_race_of_mem_cancellableBranches scope path
            (position + 1) before rest ⟨branch, inRest, hangs⟩).imp_right ?_
        rintro ⟨race, member, contests, offset, branch, taken, ends⟩
        rw [Nat.add_assoc, Nat.add_comm 1] at ends
        exact ⟨race, List.mem_append_right _ member, contests, offset + 1,
          branch, taken, ends⟩
termination_by structural branches

end

mutual

/-- Where a name hangs on a race, it did so in front of the tree, or a race of
the tree binds it that is over before the place is reached and that is written
in front of it. -/
theorem exists_race_before
    (scope : Scope) (path : Path) (before : List Node) (node : Node)
    {use : Site} (member : use ∈ node.written path before)
    (hangs : name ∈ (scope.behind use.before).cancellable) :
    name ∈ (scope.behind before).cancellable ∨
      ∃ race : Site,
        race.Contests name ∧ [race, use].Sublist (node.written path before) ∧
        ∀ place, use.path.Below place → EndsBefore race place path node := by
  unfold written at member
  cases node with
  | call invocation =>
      obtain rfl := List.mem_singleton.mp member
      exact .inl hangs
  | sequence steps =>
      rcases List.mem_cons.mp member with rfl | inStep
      · exact .inl hangs
      · refine (exists_race_beforeSteps scope path [] before steps inStep
            hangs).imp_right ?_
        rintro ⟨race, contests, order, ends⟩
        exact ⟨race, contests, order.cons _, ends⟩
  | branch condition whenTrue otherwise =>
      cases otherwise with
      | none =>
          rcases List.mem_cons.mp member with rfl | inTrue
          · exact .inl hangs
          · refine (exists_race_before scope (.field path "if_true") before
                whenTrue inTrue hangs).imp_right ?_
            rintro ⟨race, contests, order, ends⟩
            exact ⟨race, contests, order.cons _,
              fun place below => .whenTrue (ends place below)⟩
      | some otherwise =>
          rcases List.mem_cons.mp member with rfl | inArm
          · exact .inl hangs
          · rcases List.mem_append.mp inArm with inTrue | inFalse
            · refine (exists_race_before scope (.field path "if_true") before
                  whenTrue inTrue hangs).imp_right ?_
              rintro ⟨race, contests, order, ends⟩
              exact ⟨race, contests,
                (order.trans (List.sublist_append_left _ _)).cons _,
                fun place below => .whenTrue (ends place below)⟩
            · refine (exists_race_before scope (.field path "if_false") before
                  otherwise inFalse hangs).imp_right ?_
              rintro ⟨race, contests, order, ends⟩
              exact ⟨race, contests,
                (order.trans (List.sublist_append_right _ _)).cons _,
                fun place below => .otherwise (ends place below)⟩
  | fanout branches join =>
      rcases List.mem_append.mp member with inBranch | here
      · refine (exists_race_beforeBranches scope path [] before branches
            inBranch hangs).imp_right ?_
        rintro ⟨race, contests, order, ends⟩
        exact ⟨race, contests, order.trans (List.sublist_append_left _ _),
          fun place below => ends join place below⟩
      · obtain rfl := List.mem_singleton.mp here
        exact .inl hangs
  | dispatch routes rules fallback =>
      rcases List.mem_append.mp member with inRoute | here
      · refine (exists_race_beforeRoutes scope (.field path "sub_workflows")
            before routes inRoute hangs).imp_right ?_
        rintro ⟨race, contests, order, route, taken, ends⟩
        exact ⟨race, contests, order.trans (List.sublist_append_left _ _),
          fun place below => .route taken (ends place below)⟩
      · obtain rfl := List.mem_singleton.mp here
        exact .inl hangs
termination_by structural node

/-- The same for the steps of a sequence behind some first ones. -/
theorem exists_race_beforeSteps
    (scope : Scope) (path : Path) (front before steps : List Node) {use : Site}
    (member : use ∈ writtenSteps path front.length before steps)
    (hangs : name ∈ (scope.behind use.before).cancellable) :
    name ∈ (scope.behind before).cancellable ∨
      ∃ race : Site, race.Contests name ∧
        [race, use].Sublist (writtenSteps path front.length before steps) ∧
        ∀ place, use.path.Below place →
          EndsBefore race place path (.sequence (front ++ steps)) := by
  cases steps with
  | nil => cases member
  | cons node rest =>
      have taken : (front ++ node :: rest)[front.length]? = some node := by
        simp
      rcases List.mem_append.mp member with inNode | inRest
      · refine (exists_race_before scope _ before node inNode hangs).imp_right
          ?_
        rintro ⟨race, contests, order, ends⟩
        exact ⟨race, contests, order.trans (List.sublist_append_left _ _),
          fun place below => .step taken (ends place below)⟩
      · have length : (front ++ [node]).length = front.length + 1 := by simp
        rw [← length] at inRest
        rcases exists_race_beforeSteps scope path (front ++ [node])
          (before ++ [node]) rest inRest hangs with
          hangsBehind | ⟨race, contests, order, ends⟩
        · -- the name hangs on a race behind this step, so the race is in the
          -- step or before it
          rw [scope.behind_concat before node
            (path.item "steps" front.length)] at hangsBehind
          refine (exists_race_of_mem_cancellable _ _ before node
              hangsBehind).imp_right ?_
          rintro ⟨race, inNode, contests, ends⟩
          rw [length] at inRest
          refine ⟨race, contests,
            List.Sublist.append (List.singleton_sublist.mpr inNode)
              (List.singleton_sublist.mpr inRest), ?_⟩
          intro place below
          obtain ⟨later, behind, belowStep⟩ :=
            below_of_mem_sitesSteps path _ _ rest
              use ((writtenSteps_perm_sites path _ _ rest).mem_iff.mp inRest)
          exact .earlier taken behind ends (belowStep.trans below)
        · right
          rw [length] at order
          rw [List.append_assoc, List.singleton_append] at ends
          exact ⟨race, contests, order.trans (List.sublist_append_right _ _),
            ends⟩
termination_by structural steps

theorem exists_race_beforeBranches (scope : Scope) (path : Path)
    (front before branches : List Node) {use : Site}
    (member : use ∈ writtenBranches path front.length before branches)
    (hangs : name ∈ (scope.behind use.before).cancellable) :
    name ∈ (scope.behind before).cancellable ∨
      ∃ race : Site, race.Contests name ∧
        [race, use].Sublist
          (writtenBranches path front.length before branches) ∧
        ∀ join place, use.path.Below place →
          EndsBefore race place path (.fanout (front ++ branches) join) := by
  cases branches with
  | nil => cases member
  | cons node rest =>
      have taken : (front ++ node :: rest)[front.length]? = some node := by
        simp
      rcases List.mem_append.mp member with inNode | inRest
      · refine (exists_race_before scope _ before node inNode hangs).imp_right
          ?_
        rintro ⟨race, contests, order, ends⟩
        exact ⟨race, contests, order.trans (List.sublist_append_left _ _),
          fun join place below => .branch taken (ends place below)⟩
      · have length : (front ++ [node]).length = front.length + 1 := by simp
        rw [← length] at inRest
        refine (exists_race_beforeBranches scope path (front ++ [node]) before
            rest inRest hangs).imp_right ?_
        rintro ⟨race, contests, order, ends⟩
        rw [length] at order
        rw [List.append_assoc, List.singleton_append] at ends
        exact ⟨race, contests, order.trans (List.sublist_append_right _ _),
          ends⟩
termination_by structural branches

theorem exists_race_beforeRoutes
    (scope : Scope) (path : Path) (before : List Node)
    (routes : List (String × Node)) {use : Site}
    (member : use ∈ writtenRoutes path before routes)
    (hangs : name ∈ (scope.behind use.before).cancellable) :
    name ∈ (scope.behind before).cancellable ∨
      ∃ race : Site, race.Contests name ∧
        [race, use].Sublist (writtenRoutes path before routes) ∧
        ∃ route ∈ routes, ∀ place, use.path.Below place →
          EndsBefore race place (.field path route.1) route.2 := by
  cases routes with
  | nil => cases member
  | cons route rest =>
      obtain ⟨routeName, node⟩ := route
      rcases List.mem_append.mp member with inNode | inRest
      · refine (exists_race_before scope (.field path routeName) before node
            inNode hangs).imp_right ?_
        rintro ⟨race, contests, order, ends⟩
        exact ⟨race, contests, order.trans (List.sublist_append_left _ _), _,
          List.mem_cons_self, ends⟩
      · refine (exists_race_beforeRoutes scope path before rest inRest
            hangs).imp_right ?_
        rintro ⟨race, contests, order, route, taken, ends⟩
        exact ⟨race, contests, order.trans (List.sublist_append_right _ _),
          route, List.mem_cons_of_mem _ taken, ends⟩
termination_by structural routes

end

end Node

/-- Behind every warning there is a race in which some branch binds the name,
which is over before the place of the warning is reached and is written in
front of the node that looks the name up. -/
theorem Node.exists_race_of_mem_warnings
    {node : Node} {incoming : NameSet} {path : Path} {warning : ScopeWarning}
    (warned : warning ∈ (node.analyze incoming path).warnings) :
    ∃ race use : Site, race.Contests warning.name ∧ use.Holds warning.path ∧
      [race, use].Sublist (node.written path []) ∧
      EndsBefore race warning.path path node := by
  have found := ScopeReport.contested_of_mem_warningsOf warned
  have findings := node.findings_flow (Scope.ofNames incoming) path []
  rw [Scope.behind, List.foldl_nil] at findings
  rw [findings, List.mem_flatMap] at found
  obtain ⟨occurrence, member, contested⟩ := found
  obtain ⟨rfl, hangs⟩ := Scope.of_contested_mem_check contested
  rw [occurrences_eq_flatMap_sites, List.mem_flatMap] at member
  obtain ⟨use, isSite, isOccurrence⟩ := member
  obtain ⟨holds, behind⟩ := Site.of_mem_occurrences isOccurrence
  rw [behind] at hangs
  have isWritten := (written_perm_sites path [] node).mem_iff.mpr isSite
  rcases exists_race_before (Scope.ofNames incoming) path [] node isWritten
    hangs with
    atStart | ⟨race, contests, order, ends⟩
  · -- nothing hangs on a race at the start
    cases atStart
  · obtain ⟨key, _, below⟩ := holds.below
    exact ⟨race, use, contests, holds, order,
      ends occurrence.path ((Path.Below.self.field key).trans below)⟩

end Workflow
