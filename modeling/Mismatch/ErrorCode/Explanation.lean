import Mismatch.ErrorCode

/-!
# Explanations

The long explanation of every error code: what is wrong, an example, and how to mend it.
-/

namespace Mismatch.ErrorCode

/-- The explanation of a code. It starts with an empty line and ends with a line break. -/
def explanation : ErrorCode → Text
  | .e0004 => Text.lines
    ["",
      "Match must be exhaustive [E0004]",
      "",
      "A `match` expression does not cover every possible value of the scrutinee.",
      "",
      "Example:",
      "",
      "    enum Direction \x7b North, South \x7d",
      "",
      "    match dir \x7b",
      "        Direction::North => \x7b\x7d",
      "    \x7d   // `Direction::South` not covered",
      "",
      "How to fix:",
      "",
      "1. Add arms for the missing patterns",
      "2. Or add a wildcard arm `_ => \x7b\x7d` at the end"]
  | .e0054 => Text.lines
    ["",
      "Cast to bool [E0054]",
      "",
      "Integers cannot be cast to `bool` with `as`.",
      "",
      "Example:",
      "",
      "    let x = 5;",
      "    let b = x as bool;   // error",
      "",
      "How to fix:",
      "",
      "Compare with zero instead:",
      "",
      "    let b = x != 0;"]
  | .e0057 => Text.lines
    ["",
      "Wrong number of closure arguments [E0057]",
      "",
      "A closure was called with a different number of arguments than it declares.",
      "",
      "Example:",
      "",
      "    let f = |x| x * 2;",
      "    f();        // expected 1 argument",
      "    f(1, 2);    // expected 1 argument",
      "",
      "How to fix:",
      "",
      "Pass exactly the arguments the closure takes."]
  | .e0060 => Text.lines
    ["",
      "Too few arguments for a variadic function [E0060]",
      "",
      "A variadic foreign function was called with fewer than its fixed parameters.",
      "",
      "Example:",
      "",
      "    extern \"C\" \x7b fn printf(fmt: *const u8, ...) -> i32; \x7d",
      "",
      "    unsafe \x7b printf(); \x7d   // at least 1 parameter required",
      "",
      "How to fix:",
      "",
      "Supply every fixed parameter; the variadic tail may be empty."]
  | .e0061 => Text.lines
    ["",
      "Wrong number of function arguments [E0061]",
      "",
      "A function was called with a different number of arguments than it declares.",
      "",
      "Example:",
      "",
      "    fn add(a: i32, b: i32) -> i32 \x7b a + b \x7d",
      "",
      "    add(1);   // this function takes 2 parameters but 1 parameter was supplied",
      "",
      "How to fix:",
      "",
      "Pass exactly the arguments in the function signature."]
  | .e0069 => Text.lines
    ["",
      "Missing return value [E0069]",
      "",
      "`return;` was used in a function whose return type is not `()`.",
      "",
      "Example:",
      "",
      "    fn answer() -> u8 \x7b",
      "        return;   // a `u8` is expected",
      "    \x7d",
      "",
      "How to fix:",
      "",
      "1. Return a value: `return 42;`",
      "2. Or change the return type to `()` if no value is meant"]
  | .e0133 => Text.lines
    ["",
      "Unsafe operation outside an unsafe block [E0133]",
      "",
      "Calling an `unsafe fn`, dereferencing a raw pointer or accessing a mutable",
      "static requires an `unsafe` block or function.",
      "",
      "Example:",
      "",
      "    unsafe fn danger() \x7b\x7d",
      "",
      "    danger();   // call to unsafe function",
      "",
      "How to fix:",
      "",
      "1. Wrap the operation: `unsafe \x7b danger(); \x7d`",
      "2. Or mark the enclosing function `unsafe`"]
  | .e0308 => Text.lines
    ["",
      "Mismatched types [E0308]",
      "",
      "An expression has a different type than the context requires, and no",
      "implicit coercion bridges the two.",
      "",
      "Example:",
      "",
      "    let n: u64 = 5i32;             // expected `u64`, found `i32`",
      "    let s: String = \"hello\";       // expected `String`, found `&str`",
      "    let r: &mut i32 = &x;          // expected `&mut i32`, found `&i32`",
      "",
      "How to fix:",
      "",
      "1. Numeric types: add a cast (`5i32 as u64`)",
      "2. Use a conversion trait: `From`, `TryFrom`, `FromStr`, `ToOwned`,",
      "   `ToString`, `Borrow`, `AsRef`",
      "3. Add or remove references and dereferences (`&*x`, `&mut x`)",
      "4. Change the declared type of the binding or the function's return type"]
  | .e0451 => Text.lines
    ["",
      "Private field in struct literal [E0451]",
      "",
      "A struct literal names a field that is not visible from this module.",
      "",
      "Example:",
      "",
      "    mod shapes \x7b",
      "        pub struct Point \x7b pub x: i32, y: i32 \x7d",
      "    \x7d",
      "",
      "    let p = shapes::Point \x7b x: 0, y: 0 \x7d;   // field `y` is private",
      "",
      "How to fix:",
      "",
      "1. Make the field `pub`",
      "2. Or construct the value through a public constructor function"]
  | .e0594 => Text.lines
    ["",
      "Assignment to an immutable place [E0594]",
      "",
      "A value was assigned through a binding or reference that is not mutable.",
      "",
      "Example:",
      "",
      "    let x = 1;",
      "    x = 2;   // cannot assign twice to immutable variable",
      "",
      "    let r = &v;",
      "    *r = 3;  // cannot assign through a `&` reference",
      "",
      "How to fix:",
      "",
      "1. Declare the binding `let mut x`",
      "2. Borrow mutably: `&mut v`"]
  | .e0603 => Text.lines
    ["",
      "Private item [E0603]",
      "",
      "A path refers to an item that is private to another module.",
      "",
      "Example:",
      "",
      "    mod config \x7b",
      "        const LIMIT: u32 = 10;",
      "    \x7d",
      "",
      "    let n = config::LIMIT;   // constant `LIMIT` is private",
      "",
      "How to fix:",
      "",
      "Mark the item `pub` (or `pub(crate)`) if it is meant to be used outside."]
  | .e0614 => Text.lines
    ["",
      "Dereference of a non-pointer type [E0614]",
      "",
      "The `*` operator was applied to a type that neither is a reference or raw",
      "pointer nor implements `Deref`.",
      "",
      "Example:",
      "",
      "    let x = 5u32;",
      "    let y = *x;   // type `u32` cannot be dereferenced",
      "",
      "How to fix:",
      "",
      "Remove the `*`, or dereference a reference to the value instead."]
  | .e0616 => Text.lines
    ["",
      "Private field access [E0616]",
      "",
      "A field expression reads a field that is not visible from this module.",
      "",
      "Example:",
      "",
      "    mod shapes \x7b",
      "        pub struct Point \x7b x: i32 \x7d",
      "        impl Point \x7b pub fn new() -> Point \x7b Point \x7b x: 0 \x7d \x7d \x7d",
      "    \x7d",
      "",
      "    let p = shapes::Point::new();",
      "    let x = p.x;   // field `x` of struct `Point` is private",
      "",
      "How to fix:",
      "",
      "1. Make the field `pub`",
      "2. Or add a public getter method"]
  | .e0624 => Text.lines
    ["",
      "Private method [E0624]",
      "",
      "A method that is private to its module was called from outside.",
      "",
      "Example:",
      "",
      "    mod shapes \x7b",
      "        pub struct Point;",
      "        impl Point \x7b fn secret(&self) \x7b\x7d \x7d",
      "    \x7d",
      "",
      "    shapes::Point.secret();   // method `secret` is private",
      "",
      "How to fix:",
      "",
      "Mark the method `pub` if callers outside the module need it."]

end Mismatch.ErrorCode
