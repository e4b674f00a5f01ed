import Workflow.Proofs.Document.Reading
import Workflow.Proofs.Name.Sorted

/-!
# Lawful trees

What acceptance makes sure of about a tree, said of the tree alone: names are
identifiers, parameters are templates, conditions are accepted, nothing is
empty that must not be, and routing leads to routes that exist.
-/

namespace Workflow

namespace Node

mutual

/-- Everything that acceptance asks of a tree. -/
def Lawful : Node → Prop
  | .call invocation => invocation.Lawful
  | .sequence steps => steps ≠ [] ∧ LawfulList steps
  | .branch condition whenTrue none =>
      Condition.check condition = .ok () ∧ Lawful whenTrue
  | .branch condition whenTrue (some otherwise) =>
      Condition.check condition = .ok () ∧ Lawful whenTrue ∧ Lawful otherwise
  | .fanout branches _ => 2 ≤ branches.length ∧ LawfulList branches
  | .dispatch routes rules fallback =>
      routes ≠ [] ∧ Sorted.Increasing routes ∧ LawfulRoutes routes ∧
        LawfulRouting (routes.map Prod.fst) rules fallback

def LawfulList : List Node → Prop
  | [] => True
  | node :: rest => Lawful node ∧ LawfulList rest

def LawfulRoutes : List (String × Node) → Prop
  | [] => True
  | (name, node) :: rest =>
      isIdentifier name = true ∧ Lawful node ∧ LawfulRoutes rest

end

theorem lawfulRoutes_iff {routes : List (String × Node)} :
    LawfulRoutes routes ↔
      ∀ route ∈ routes, isIdentifier route.1 = true ∧ route.2.Lawful := by
  induction routes with
  | nil => simp [LawfulRoutes]
  | cons route rest induction => simp [LawfulRoutes, induction, and_assoc]

end Node

theorem LawfulRouting.ofList
    {routes : List (String × Node)} {rules : List Rule}
    {fallback : Option String}
    (routing : LawfulRouting (routes.map Prod.fst) rules fallback) :
    LawfulRouting ((Sorted.ofList routes).map Prod.fst) rules fallback where
  ofRule rule member := by
    obtain ⟨accepted, known⟩ := routing.ofRule rule member
    exact ⟨accepted, Sorted.mem_names_ofList.mpr known⟩
  ofFallback target isFallback :=
    Sorted.mem_names_ofList.mpr (routing.ofFallback target isFallback)
  leads := routing.leads

namespace Document

theorem ofList_ne_nil
    {routes : List (String × Node)} (notEmpty : routes ≠ []) :
    Sorted.ofList routes ≠ [] := by
  obtain ⟨route, rest, rfl⟩ := List.exists_cons_of_ne_nil notEmpty
  intro empty
  have member : route.1 ∈ (Sorted.ofList (route :: rest)).map Prod.fst :=
    Sorted.mem_names_ofList.mpr (by simp)
  simp [empty] at member

mutual

theorem NodeDocument.lawful
    {value : Value} {node : Node} (document : NodeDocument value node) :
    node.Lawful :=
  match document with
  | .call _ _ _ _ lawful => lawful
  | .sequence _ _ documents notEmpty => ⟨notEmpty, documents.lawful⟩
  | .branch _ _ accepted _ whenTrue _ => ⟨accepted, whenTrue.lawful⟩
  | .branchElse _ _ accepted _ whenTrue _ otherwise =>
      ⟨accepted, whenTrue.lawful, otherwise.lawful⟩
  | .fanout _ _ documents several _ => ⟨several, documents.lawful⟩
  | .dispatch _ _ documents notEmpty _ _ routing => by
      refine ⟨ofList_ne_nil notEmpty, Sorted.increasing_ofList _, ?_,
        routing.ofList⟩
      have each := Node.lawfulRoutes_iff.mp documents.lawful
      apply Node.lawfulRoutes_iff.mpr
      intro route member
      exact each route (Sorted.mem_of_mem_ofList member)

theorem NodeDocuments.lawful {values : List Value} {nodes : List Node}
    (documents : NodeDocuments values nodes) : Node.LawfulList nodes :=
  match documents with
  | .nil => trivial
  | .cons first rest => ⟨first.lawful, rest.lawful⟩

theorem RouteDocuments.lawful
    {entries : List (String × Value)} {routes : List (String × Node)}
    (documents : RouteDocuments entries routes) :
    Node.LawfulRoutes routes :=
  match documents with
  | .nil => trivial
  | .cons identifier first rest => ⟨identifier, first.lawful, rest.lawful⟩

end

end Document

end Workflow
