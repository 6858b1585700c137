import Gsx.Diagnostic
import Gsx.Identifier
import Gsx.Text.Blank
import Gsx.Tree.Site
/-!
# Let bindings

The names that `@let` binds, and the expressions that refer to them. An
expression that is nothing but a bound name becomes a reference, wherever in
the file the name is bound.
-/

namespace Gsx

/-- The binding at a site, if one stands there. -/
def Site.let? (s : Site) : Option LetHead :=
  match s.node with
  | .letBinding h _ _ => some h
  | _ => none

/-- The bindings of a component, in document order. -/
def Component.lets (c : Component) : List LetHead :=
  c.sites.filterMap Site.let?

/-- The bindings in a list whose name occurs before them, or in `seen`. -/
def LetHead.repeated (seen : List String) : List LetHead → List LetHead
  | [] => []
  | h :: rest =>
    if seen.contains h.name then h :: repeated seen rest else repeated (h.name :: seen) rest

/-- An error for each binding of a component whose name is already bound
there. -/
def Component.repeatedLets (file : String) (c : Component) : List Diagnostic :=
  (LetHead.repeated [] c.lets).map fun h =>
    .error file h.position ("duplicate @let binding \"" ++ h.name ++ "\"")

/-- The names in a list, each at its first place. -/
def firstOccurrences : List String → List String
  | [] => []
  | name :: rest => name :: (firstOccurrences rest).filter (· != name)

theorem mem_firstOccurrences {name : String} {names : List String} :
    name ∈ firstOccurrences names ↔ name ∈ names := by
  induction names with
  | nil => rfl
  | cons first rest ih =>
    by_cases h : name = first
    · simp [firstOccurrences, h]
    · simp [firstOccurrences, ih, h]

theorem nodup_firstOccurrences (names : List String) : (firstOccurrences names).Nodup := by
  induction names with
  | nil => exact List.nodup_nil
  | cons first rest ih =>
    refine List.nodup_cons.2 ⟨?_, ih.filter _⟩
    simp

/-- All names bound in a file, in the order of their first binding. -/
def SourceFile.letNames (f : SourceFile) : List String :=
  firstOccurrences (f.components.flatMap fun c => c.lets.map (·.name))

/-- The reference that an expression is, if it is nothing but a bound name. -/
def GoExpr.reference? (names : List String) (e : GoExpr) : Option LetReference :=
  let code := Text.trim e.code
  if isSimpleIdentifier code && names.contains code then some ⟨code, e.position⟩ else none

mutual

/-- Turns the expressions in a node that are bound names into references. -/
def Node.link (names : List String) : Node → Node
  | .element h cs => .element h (Node.linkAll names cs)
  | .letBinding h e cs => .letBinding h e (Node.linkAll names cs)
  | .forLoop h b => .forLoop h (Node.linkAll names b)
  | .conditional h t e => .conditional h (Node.linkAll names t) (Node.linkAll names e)
  | .call h cs => .call h (Node.linkAll names cs)
  | .slot s => .slot s
  | .expression e =>
    match e.reference? names with
    | some r => .letReference r
    | none => .expression e
  | .letReference r => .letReference r
  | .text t => .text t
  | .goCode c => .goCode c

/-- Turns the expressions in a body that are bound names into references. -/
def Node.linkAll (names : List String) : List Node → List Node
  | [] => []
  | n :: ns => n.link names :: Node.linkAll names ns

end

/-- The reference at a site, if one stands there. -/
def Site.letReference? (s : Site) : Option LetReference :=
  match s.node with
  | .letReference r => some r
  | _ => none

/-- The names that are referred to in a component. -/
def Component.usedLets (c : Component) : List String :=
  (c.sites.filterMap Site.letReference?).map (·.name)

/-- The bound names of a file, each with whether it is referred to. -/
def SourceFile.letUses (f : SourceFile) : List (String × Bool) :=
  f.letNames.map fun name => (name, f.components.any fun c => c.usedLets.contains name)

end Gsx
