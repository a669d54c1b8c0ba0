import ScriptBundler.Token

/-!
# Name/Reserved — names that have a meaning of their own

Reserved words and the names of what the host provides are never given to anything else, and neither
are the names that the module table uses.
-/

namespace ScriptBundler.Reserved

/-- The names of the module table: the function that loads a module, the modules, what they export,
and the parameter that a module writes its exports to. -/
def runtimeNames : List String := ["__REQUIRE", "__MODULES", "__EXPORTED", "module"]

/-- Names that the host resolves while the program runs, so they keep their spelling. -/
def intrinsics : List String :=
  ["self", "super", "globals", "locals", "outer", "params", "number", "string", "list", "map",
    "funcRef", "abs", "acos", "asin", "atan", "ceil", "cos", "floor", "log", "pi", "rnd", "round",
    "sign", "sin", "sqrt", "str", "tan", "val", "bitAnd", "bitOr", "bitXor", "char", "code",
    "hasIndex", "indexOf", "indexes", "insert", "join", "len", "lower", "pop", "pull", "push",
    "range", "remove", "replace", "reverse", "shuffle", "slice", "sort", "split", "sum", "to_int",
    "trim", "upper", "values", "print", "time", "wait", "yield", "exit", "typeof", "hash",
    "user_input", "include_lib", "import_code", "get_shell", "get_router", "get_switch",
    "active_user", "home_dir", "program_path", "current_path", "current_date", "parent_path",
    "is_valid_ip", "is_lan_ip", "nslookup", "whois", "format_columns", "clear_screen",
    "launch_path", "md5", "bitwise", "mail_login", "get_custom_object"]

/-- Every name that is never made up, each once. -/
def forbidden (excluded : List String) : List String :=
  (Keyword.all.map Keyword.spelling ++ intrinsics ++ runtimeNames ++ excluded).eraseDups

end ScriptBundler.Reserved
