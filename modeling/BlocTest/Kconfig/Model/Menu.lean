import BlocTest.Kconfig.Model.Transform
/-!
# Dependencies along the menu tree

What `menu.c` does with dependencies in `menu_finalize`: those of a menu node
are handed on to its children, an entry that depends on the one before it is
put in a submenu of it, and a value that is not tristate of a tristate choice
is made to depend on the choice being `y`. What `sym_calc_visibility` makes of the result is
here too.
-/

namespace BlocTest

namespace Kconfig

/-- A menu node with children: an `if`, a `menu` with a prompt, a `choice`. -/
inductive MenuNode where
  | cond (dep : Option Expr)
  | menu (dep visible : Option Expr)
  | choice (dep : Option Expr) (sym : SymPtr)

section Menu

variable (tab : SymbolTable) (modules : SymPtr) (fuel : ℕ)

/-- The choice an entry belongs to: an `if` around it has been flattened away
when the values of the choice are gathered, a `menu` has not. -/
def choiceOf : List MenuNode → Option SymPtr → Option SymPtr
  | [], choice => choice
  | .cond _ :: path, choice => choiceOf path choice
  | .menu _ _ :: path, _ => choiceOf path none
  | .choice _ sym :: path, _ => choiceOf path (some sym)

end Menu

end Kconfig

end BlocTest
