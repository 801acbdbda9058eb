import Sdbusplus.Tools.Property

namespace Sdbusplus.Tools.Property.NamedElement

def cppReserved : List String :=
  ["alignas", "alignof", "and", "and_eq", "asm", "auto", "bitand", "bitor", "bool", "break", "case",
   "catch", "char", "char8_t", "char16_t", "char32_t", "class", "compl", "concept", "const",
   "consteval", "constexpr", "constinit", "const_cast", "continue", "co_await", "co_return",
   "co_yield", "decltype", "default", "delete", "do", "double", "dynamic_cast", "else", "enum",
   "explicit", "export", "extern", "false", "float", "for", "friend", "goto", "if", "inline", "int",
   "long", "mutable", "namespace", "new", "noexcept", "not", "not_eq", "nullptr", "operator", "or",
   "or_eq", "private", "protected", "public", "register", "reinterpret_cast", "requires", "return",
   "short", "signed", "sizeof", "static", "static_assert", "static_cast", "struct", "switch",
   "template", "this", "thread_local", "throw", "true", "try", "typedef", "typeid", "typename",
   "union", "unsigned", "using", "virtual", "void", "volatile", "wchar_t", "while", "xor", "xor_eq"]

def reserved (name : Text) : Bool := cppReserved.any (fun word => word.toList = name)

theorem reserved_length {name : Text} (h : reserved name = true) : name.length ≤ 16 := by
  have hall : ∀ word ∈ cppReserved, word.toList.length ≤ 16 := by decide
  obtain ⟨word, hword, heq⟩ := List.any_eq_true.mp h
  rw [← of_decide_eq_true heq]
  exact hall word hword

/-- __fixup_name. -/
def fixupName (name : Text) : Text :=
  if reserved name then fixupName (name ++ ['_']) else name
termination_by 17 - name.length
decreasing_by
  have hlen := reserved_length (by assumption)
  simp only [List.length_append, List.length_singleton]
  omega

theorem fixupName_free {name : Text} (h : reserved name = false) : fixupName name = name := by
  rw [fixupName]
  exact if_neg (by rw [h]; exact Bool.false_ne_true)

variable (inflection : Inflection)

def snakeCase (name : Text) : Text := fixupName (inflection.underscore name)

/-- SNAKE_CASE of a name in ASCII. -/
def upperSnakeCase (name : Text) : Text :=
  fixupName ((inflection.underscore name).map Char.toUpper)

end Sdbusplus.Tools.Property.NamedElement
