import Gsx.Tree.Basic
/-!
# Equality up to positions

Two trees are the same when they differ at most in where things stand. The
comments count, with their extent, and so does the kind of every node.
-/

namespace Gsx

/-- Whether two comments are the same. The end of a comment counts, its start
does not. -/
def Comment.same (a b : Comment) : Bool :=
  a.text == b.text && a.stop == b.stop && a.isBlock == b.isBlock && a.blankBefore == b.blankBefore

/-- Whether two lists have the same length and the same items in order. -/
def sameItems {α : Type} (same : α → α → Bool) : List α → List α → Bool
  | [], [] => true
  | a :: as, b :: bs => same a b && sameItems same as bs
  | _, _ => false

/-- Whether two optional items are both missing or the same. -/
def sameOption {α : Type} (same : α → α → Bool) : Option α → Option α → Bool
  | none, none => true
  | some a, some b => same a b
  | _, _ => false

/-- Whether two comment groups are the same. -/
def CommentGroup.same (a b : CommentGroup) : Bool :=
  sameItems Comment.same a.comments b.comments

/-- Whether two expressions are the same. -/
def GoExpr.same (a b : GoExpr) : Bool :=
  a.code == b.code && sameOption CommentGroup.same a.leading b.leading

/-- Whether two attribute values are the same. -/
def AttributeValue.same : AttributeValue → AttributeValue → Bool
  | .string a _, .string b _ => a == b
  | .int a _, .int b _ => a == b
  | .float a _, .float b _ => a == b
  | .bool a _, .bool b _ => a == b
  | .expression a, .expression b => a.same b
  | _, _ => false

/-- Whether two attributes are the same. -/
def Attribute.same (a b : Attribute) : Bool :=
  a.name == b.name && a.value.same b.value

/-- Whether two optional comment groups are the same. -/
def sameComments (a b : Option CommentGroup) : Bool :=
  sameOption CommentGroup.same a b

/-- Whether two lists of comment groups are the same. -/
def sameOrphans (a b : List CommentGroup) : Bool :=
  sameItems CommentGroup.same a b

/-- Whether two elements are the same but for their children. -/
def ElementHead.same (a b : ElementHead) : Bool :=
  a.tag == b.tag && sameItems Attribute.same a.attributes b.attributes
    && a.selfClosing == b.selfClosing && a.ref == b.ref && sameOption GoExpr.same a.key b.key
    && sameComments a.leading b.leading && sameComments a.trailing b.trailing
    && sameOrphans a.orphans b.orphans

/-- Whether two bindings are the same but for their elements. -/
def LetHead.same (a b : LetHead) : Bool :=
  a.name == b.name && sameComments a.leading b.leading

/-- Whether two loops are the same but for their bodies. -/
def ForHead.same (a b : ForHead) : Bool :=
  a.index == b.index && a.value == b.value && a.iterable == b.iterable
    && sameComments a.leading b.leading && sameComments a.trailing b.trailing
    && sameOrphans a.orphans b.orphans

/-- Whether two conditionals are the same but for their branches. -/
def IfHead.same (a b : IfHead) : Bool :=
  a.condition == b.condition && sameComments a.leading b.leading
    && sameComments a.trailing b.trailing && sameOrphans a.orphans b.orphans

/-- Whether two calls are the same but for their children. -/
def CallHead.same (a b : CallHead) : Bool :=
  a.name == b.name && a.args == b.args && sameComments a.leading b.leading
    && sameOrphans a.orphans b.orphans

mutual

/-- Whether two nodes are the same. -/
def Node.same : Node → Node → Bool
  | .element h cs, .element h' cs' => h.same h' && Node.sameAll cs cs'
  | .letBinding h e cs, .letBinding h' e' cs' => h.same h' && e.same e' && Node.sameAll cs cs'
  | .forLoop h b, .forLoop h' b' => h.same h' && Node.sameAll b b'
  | .conditional h t e, .conditional h' t' e' =>
    h.same h' && Node.sameAll t t' && Node.sameAll e e'
  | .call h cs, .call h' cs' => h.same h' && Node.sameAll cs cs'
  | .slot s, .slot s' => sameComments s.leading s'.leading
  | .expression e, .expression e' => e.same e'
  | .letReference r, .letReference r' => r.name == r'.name
  | .text t, .text t' => t.text == t'.text
  | .goCode c, .goCode c' => c.code == c'.code && sameComments c.leading c'.leading
  | _, _ => false

/-- Whether two bodies are the same. -/
def Node.sameAll : List Node → List Node → Bool
  | [], [] => true
  | n :: ns, m :: ms => n.same m && Node.sameAll ns ms
  | _, _ => false

end

/-- Whether two components are the same. -/
def Component.same (a b : Component) : Bool :=
  a.name == b.name
    && sameItems (fun p q : Param => p.name == q.name && p.type == q.type) a.params b.params
    && Node.sameAll a.body b.body && a.acceptsChildren == b.acceptsChildren
    && sameComments a.leading b.leading && sameComments a.trailing b.trailing
    && sameOrphans a.orphans b.orphans

/-- Whether two imports are the same. -/
def Import.same (a b : Import) : Bool :=
  a.localName == b.localName && a.path == b.path && sameComments a.trailing b.trailing

/-- Whether two declarations are the same. -/
def GoDecl.same (a b : GoDecl) : Bool :=
  a.kind == b.kind && a.code == b.code && sameComments a.leading b.leading

/-- Whether two functions are the same. -/
def GoFunc.same (a b : GoFunc) : Bool :=
  a.code == b.code && sameComments a.leading b.leading

/-- Whether two files are the same. Their names do not count. -/
def SourceFile.same (a b : SourceFile) : Bool :=
  a.package == b.package && sameItems Import.same a.imports b.imports
    && sameItems GoDecl.same a.decls b.decls
    && sameItems Component.same a.components b.components
    && sameItems GoFunc.same a.funcs b.funcs
    && sameComments a.leading b.leading && sameOrphans a.orphans b.orphans

end Gsx
