/-
  The helpers that emitted code calls by name: showing values, aborting, the `?` operator, taking
  the value out of an optional or fallible one, output without a line end, and the program's
  arguments.
-/
namespace RustScript.Program

def preambleLines : List String :=
  ["function debug_repr(value) \x7b",
   "if (value === null || value === undefined) return \"None\";",
   "if (typeof value === \"string\") return JSON.stringify(value);",
   "if (Array.isArray(value)) return \"[\" + value.map(debug_repr).join(\", \") + \"]\";",
   "if (value instanceof Map) return \"\x7b\" + Array.from(value, ([k, v]) => " ++
     "debug_repr(k) + \": \" + debug_repr(v)).join(\", \") + \"\x7d\";",
   "if (value instanceof Set) return \"\x7b\" + Array.from(value, debug_repr).join(\", " ++
     "\") + \"\x7d\";",
   "if (typeof value === \"object\") \x7b",
   "const name = value.constructor && value.constructor !== Object ? " ++
     "value.constructor.name + \" \" : \"\";",
   "const fields = Object.keys(value).map((key) => key + \": \" + debug_repr(value[key]));",
   "return name + \"\x7b \" + fields.join(\", \") + \" \x7d\";",
   "\x7d",
   "return String(value);",
   "\x7d",
   "function panic(message) \x7b",
   "throw new Error(\"Rust panic: \" + (message === undefined ? \"explicit panic\" : " ++
     "message));",
   "\x7d",
   "function assert(condition, message) \x7b",
   "if (!condition) panic(message === undefined ? \"assertion failed\" : message);",
   "\x7d",
   "function assert_eq(left, right, message, negate) \x7b",
   "const same = debug_repr(left) === debug_repr(right);",
   "if (same === !negate) return;",
   "const op = negate ? \"!=\" : \"==\";",
   "const detail = `assertion \\`left $\x7bop\x7d right\\` failed\\n  left: " ++
     "$\x7bdebug_repr(left)\x7d\\n right: $\x7bdebug_repr(right)\x7d`;",
   "panic(message === undefined ? detail : message + \"\\n\" + detail);",
   "\x7d",
   "class TryPropagation \x7b",
   "constructor(value) \x7b",
   "this.value = value;",
   "\x7d",
   "\x7d",
   "function try_unwrap(value) \x7b",
   "if (value === null || value === undefined) throw new TryPropagation(null);",
   "if (typeof value === \"object\" && \"error\" in value) throw new TryPropagation(value);",
   "if (typeof value === \"object\" && \"ok\" in value) return value.ok;",
   "return value;",
   "\x7d",
   "function unwrap(value, message) \x7b",
   "if (value === null || value === undefined) panic(message === undefined ? \"called " ++
     "`Option::unwrap()` on a `None` value\" : message);",
   "if (typeof value === \"object\" && \"error\" in value) panic((message === undefined ? " ++
     "\"called `Result::unwrap()` on an `Err` value\" : message) + \": \" + " ++
     "debug_repr(value.error));",
   "if (typeof value === \"object\" && \"ok\" in value) return value.ok;",
   "return value;",
   "\x7d",
   "function write_stdout(text) \x7b",
   "if (typeof process !== \"undefined\" && process.stdout) " ++
     "process.stdout.write(String(text ?? \"\"));",
   "else console.log(text);",
   "\x7d",
   "function write_stderr(text) \x7b",
   "if (typeof process !== \"undefined\" && process.stderr) " ++
     "process.stderr.write(String(text ?? \"\"));",
   "else console.error(text);",
   "\x7d",
   "const env = \x7b",
   "args() \x7b",
   "return [\"program\", ...(globalThis.__rust_args || [])];",
   "\x7d",
   "\x7d;"]

def preamble : String := "\n".intercalate preambleLines

end RustScript.Program
