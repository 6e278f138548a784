import MemberAccess.Session
import MemberAccess.Sorted

/-!
Visibility by libraries. A declaration is visible in its own library and wherever an import admits
it. The core library is imported everywhere, imports are not passed on, and the body of a
declaration always sees the declaration itself.
-/
namespace MemberAccess

namespace Program

def imports (P : Program) (library : LibraryId) (d : Decl) : Except Fault Bool := do
  pure ((← P.libraries.fetch library).imports.any fun i =>
    i.library = d.library && i.clause.admits d.binder)

def isVisibleIn (P : Program) (library : LibraryId) (d : DeclId) : Except Fault Bool := do
  let decl ← P.decls.fetch d
  if decl.library = library ∨ decl.library = .core then pure true else P.imports library decl

def visibleAmong (P : Program) (library : LibraryId) : List DeclId → Except Fault (List DeclId)
  | [] => pure []
  | d :: ds => do
    let isVisible ← P.isVisibleIn library d
    let others ← P.visibleAmong library ds
    pure (if isVisible then d :: others else others)

def visible (P : Program) (site : Site) : Except Fault (List DeclId) := do
  let inLibrary ← P.visibleAmong site.library P.decls.indices
  pure (Sorted.insertAll (compareOn (·.val)) site.enclosing.toList inLibrary)

def scope (P : Program) : Scope where
  visible := P.visible
  isConstant site := site.constantContext

def session (P : Program) (options : Options) : Session where
  program := P
  oracle := P.oracle options.limit
  scope := P.scope
  options := options

end Program

end MemberAccess
