import Pathwise.Syntax.Parse

/-!
# The grammar of network programs

A program file may include other files, name a packet parser, and define services (chains of
applications along a path), applications and modules.  Quoted file names are written between the
marks `>-<`, which stand for quotation marks.
-/

namespace Pathwise.Language

open Ebnf

/-- A file name between separators, such as `lib/forward`. -/
def filePath : Ebnf := seq (token .name) (many (seq (lit "/") (token .name)))

/-- One or more data operands with commas between them. -/
def dataList : Ebnf := sepBy1 (rule "data") (lit ",")

def fieldType : Ebnf := alt (token .bitType) (token .name)

/-- The key or value part of a map's signature: one type, or several in angle brackets. -/
def fieldTypes : Ebnf :=
  alt fieldType (all [lit "<", fieldType, many (seq (lit ",") fieldType), lit ">"])

/-- A call without arguments, as in `drop();`. -/
def bareCall (word : String) : Ebnf := all [lit word, lit "(", lit ")", lit ";"]

def unaryCall (word : String) : Ebnf := all [lit word, lit "(", rule "data", lit ")", lit ";"]

def braced (body : Ebnf) : Ebnf := all [lbrace, body, rbrace]

def comparison (op : String) : Ebnf := all [rule "data", lit op, rule "data"]

def programRules : List (String × Ebnf) := [
  ("start", all [opt (rule "include"), opt (rule "usingparser"), opt (rule "code")]),
  -- inclusion of files
  ("include", many (oneOf [rule "include_sys_file", rule "include_sys_domain",
    rule "include_user_file", rule "include_user_domain", rule "annotation"])),
  ("include_sys_file", all [lit "#include", lit "<", filePath, lit ".pne", lit ">"]),
  ("include_sys_domain", all [lit "#include", lit "<", token .name, lit ".domain", lit ">"]),
  ("include_user_file", all [lit "#include", lit ">-<", filePath, lit ".pne", lit ">-<"]),
  ("include_user_domain", all [lit "#include", lit ">-<", filePath, lit ".domain", lit ">-<"]),
  ("usingparser", all [lit "using", token .name, lit ";"]),
  -- services, applications and modules
  ("code", many (oneOf [rule "service", rule "application", rule "module"])),
  ("service", all [lit "service[", token .name, lit "]", braced (rule "ser_app")]),
  ("ser_app", sepBy1 (token .name) (lit "->")),
  ("application", all [lit "application", token .name, opt (seq (lit "using") (token .name)),
    braced (rule "code_body")]),
  ("module", all [lit "module", rule "module_name", lit "(", opt (rule "module_pars"), lit ")",
    opt (rule "module_parser"), lbrace, opt (rule "parser"), rule "control", rbrace]),
  ("module_name", token .name),
  ("module_parser", seq (lit "using") (token .name)),
  ("module_pars", sepBy1 (rule "module_par") (lit ",")),
  ("module_par", all [token .name, token .dataType, rule "data"]),
  ("parser", seq (lit "parser") (braced (many (seq (rule "data") (lit ";"))))),
  ("control", seq (lit "control") (braced (rule "code_body"))),
  -- instructions
  ("code_body", many (rule "instruction")),
  ("instruction", oneOf [rule "ins_assign", rule "ins_call", rule "if", rule "assert",
    rule "define",
    rule "switch", rule "primitive", rule "ins_cul", rule "annotation", rule "ins_null",
    rule "for_loop", rule "while_loop"]),
  ("annotation", all [lit "/*", many (oneOf [rule "instruction", rule "include_sys_file",
    rule "include_sys_domain", rule "include_user_file", rule "include_user_domain"]), lit "*/"]),
  ("ins_define_var", all [token .dataType, token .name, lit ";"]),
  ("ins_assign", all [rule "ins_assign_left", lit "=", rule "ins_assign_right", lit ";"]),
  ("ins_assign_left", dataList),
  ("ins_assign_right", rule "expression"),
  ("ins_call", all [token .name, lit ".apply", lit "(", opt (rule "ins_call_par"),
    lit ")", lit ";"]),
  ("ins_call_par", dataList),
  ("ins_cul", all [rule "data", lit "=", rule "data", token .sign, rule "data", lit ";"]),
  ("ins_null", lit ";"),
  ("func", all [lit "func", token .name, lit "(", opt (rule "func_params"), lit ")",
    braced (rule "code_body")]),
  ("func_params", sepBy1 (rule "func_param") (lit ",")),
  ("func_param", seq (token .dataType) (token .name)),
  -- primitives
  ("primitive", oneOf [rule "sendtocpu", rule "nop", rule "drop", rule "removeheader",
    rule "addheader",
    rule "return", rule "updatechecksum", rule "headercompress"]),
  ("sendtocpu", bareCall "sendToCPU"),
  ("nop", bareCall "nop"),
  ("drop", bareCall "drop"),
  ("removeheader", unaryCall "removeHeader"),
  ("headercompress", unaryCall "HeaderCompress"),
  ("addheader", unaryCall "addHeader"),
  ("return", bareCall "return"),
  ("updatechecksum", all [lit "updateChecksum", lit "(", dataList, lit ")", lit ";"]),
  -- selection by table
  ("switch", all [lit "switch", lit "(", rule "switch_key", lit ")",
    braced (many (rule "switch_item"))]),
  ("switch_key", dataList),
  ("switch_item", all [rule "data", lit ":", alt (rule "func_call") (rule "ins_call")]),
  ("func_call", all [token .name, lit "(", opt (rule "func_call_par"), lit ")", lit ";"]),
  ("func_call_par", dataList),
  -- definitions
  ("define", oneOf [rule "tuple", rule "set", rule "map", rule "ins_define_var", rule "func",
    rule "reg"]),
  ("reg", all [lit "static", token .dataType, token .name, opt (all [lit "[", token .int, lit "]"]),
    lit ";"]),
  ("tuple", all [lit "tuple", token .name, braced (rule "tuple_data")]),
  ("tuple_data", dataList),
  ("set", all [lit "set", lit "<", rule "set_key", lit ">", rule "set_name",
    opt (rule "entry"), lit ";"]),
  ("set_key", sepBy1 fieldType (lit ",")),
  ("set_name", token .name),
  ("map", all [lit "map", lit "<", rule "map_key", lit ",", rule "map_value", lit ">",
    opt (all [lit "[", rule "map_len", lit "]"]), rule "map_name", opt (rule "entry"), lit ";"]),
  ("entry", braced (opt (seq (rule "single_entry") (many (rule "single_entry"))))),
  ("single_entry", all [lit "(", opt dataList, lit ")", lit ";"]),
  ("map_name", token .name),
  ("map_key", fieldTypes),
  ("map_value", fieldTypes),
  ("map_len", rule "int"),
  -- conditions and control flow
  ("assert", all [lit "assert", lit "(", rule "condition", lit ")", lit ";"]),
  ("if", all [lit "if", lit "(", rule "if_block", rbrace, opt (rule "else_block")]),
  ("if_block", all [rule "condition", lit ")", lbrace, rule "code_body"]),
  ("else_block", seq (lit "else") (alt (rule "if") (rule "else"))),
  ("else", braced (rule "code_body")),
  ("for_loop", all [lit "for", lit "(", opt (rule "for_init"), lit ";",
    opt (rule "for_condition"), lit ";",
    opt (rule "for_update"), lit ")", braced (rule "code_body")]),
  ("for_init", alt (rule "ins_define_var") (rule "ins_assign")),
  ("for_condition", rule "condition"),
  ("for_update", alt (rule "ins_assign") (rule "ins_call")),
  ("while_loop", all [lit "while", lit "(", rule "condition", lit ")", braced (rule "code_body")]),
  ("not", lit "!"),
  ("condition", seq (opt (rule "not"))
    (oneOf [rule "compare", rule "check", rule "isvalid", rule "logical"])),
  ("compare", oneOf [rule "compare_e", rule "compare_ne", rule "compare_b", rule "compare_be",
    rule "compare_s", rule "compare_se"]),
  ("compare_e", comparison "=="),
  ("compare_ne", comparison "!="),
  ("compare_b", comparison ">"),
  ("compare_be", comparison ">="),
  ("compare_s", comparison "<"),
  ("compare_se", comparison "<="),
  ("check", all [rule "check_left", lit "in", rule "check_right"]),
  ("check_left", dataList),
  ("check_right", rule "data"),
  ("isvalid", alt (seq (rule "data") (lit ".isValid()")) (all [lit "isValid(", dataList, lit ")"])),
  ("logical", alt (rule "logical_and") (rule "logical_or")),
  ("logical_and", all [rule "condition", lit "&&", rule "condition"]),
  ("logical_or", all [rule "condition", lit "||", rule "condition"]),
  -- expressions and operands
  ("expression", seq (rule "term") (many (seq (alt (lit "+") (lit "-")) (rule "term")))),
  ("term", seq (rule "factor") (many (seq (oneOf [lit "*", lit "/", lit "%"]) (rule "factor")))),
  ("factor", oneOf [rule "data", all [lit "(", rule "expression", lit ")"],
    seq (rule "unary_op") (rule "factor")]),
  ("unary_op", oneOf [lit "+", lit "-", lit "~", lit "!"]),
  ("data", oneOf [rule "name_field", rule "int", rule "name", rule "array", rule "sys_data",
    rule "ip_data",
    rule "ox_num", all [lit "(", rule "expression", lit ")"]]),
  ("ip_data", alt (token .address4) (token .address6)),
  ("name_field", all [token .name, lit ".", token .name, opt (seq (lit ".") (token .name))]),
  ("int", token .int),
  ("sys_data", token .systemName),
  ("name", token .name),
  ("index", rule "data"),
  ("indexs", sepBy1 (rule "index") (lit ",")),
  ("index_null", lit "_"),
  ("array", all [rule "data", lit "[", alt (rule "indexs") (rule "index_null"), lit "]"]),
  ("ox_num", token .hexNumber)]

def program : Grammar := .ofRules programRules

end Pathwise.Language
