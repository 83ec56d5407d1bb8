/-! Kinds of values that documents spell by name. -/
namespace SyntaxRecovery

/-- A finite kind of value. Each value has its own name, of lower-case words joined by
underscores. -/
class Named (α : Type) where
  all : List α
  name : α → String

namespace Named
variable {α : Type} [Named α]

def ofName? (word : String) : Option α := (all : List α).find? (name · == word)

/-- The name with each word capitalised and the underscores left out. -/
def title (a : α) : String := String.join (((name a).splitOn "_").map String.capitalize)

end Named

end SyntaxRecovery
