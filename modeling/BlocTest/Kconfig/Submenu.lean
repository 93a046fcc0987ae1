import BlocTest.Kconfig.Menu
/-!
# Submenus

`menu_finalize` puts an entry in the submenu of the symbol before it when its
dependencies show that it is not to be seen without that symbol.
-/

namespace BlocTest

namespace Kconfig

variable {tab : SymbolTable} {cfg : Config tab} {e e' : Expr} {sym : SymPtr}

end Kconfig

end BlocTest
