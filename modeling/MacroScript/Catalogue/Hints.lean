/-!
# Hints

Short explanations of keywords, members and declared names, shown beside a completion candidate.
-/
namespace MacroScript.Catalogue

/-- The key of the hint for a variable declared in the document. -/
def variableKey : String :=
  "varNameIntellisense"

/-- The key of the hint for a function declared in the document. -/
def functionKey : String :=
  "funNameIntellisense"

/-- The key of the hint for a class declared in the document. -/
def classKey : String :=
  "classNameIntellisense"

/-- An explanation: one line that names the thing, and lines that explain it. -/
structure Hint where
  detail : String
  lines : List String
deriving DecidableEq, Repr

/-- The explaining lines, each with its line break. -/
def Hint.documentation (hint : Hint) : String :=
  String.join (hint.lines.map (· ++ "\n"))

/-- All hints by key. -/
def hints : List (String × Hint) :=
  [("var",
     { detail := "Variable declaration"
       lines :=
         ["Declare variable",
          "\tvar i = \"hello\";",
          "A variable declared inside a block is visible until the block closes.",
          "if (true) \x7b",
          "\tvar i = 0;",
          "\x7d"] }),
   ("if",
     { detail := "Condition declaration"
       lines :=
         ["var i = 1;",
          "if (i == 0) \x7b",
          "\tSys.alert(\"i equals zero\");",
          "\x7d else if (i == 1) \x7b",
          "\tSys.alert(\"i equals one\");",
          "\x7d else \x7b",
          "\tSys.alert(\"i is neither zero nor one\");",
          "\x7d",
          "The 'else' branch runs when every condition above it is false."] }),
   ("while",
     { detail := "While loop"
       lines :=
         ["var arr = [1, 2, 3, 4, 5];",
          "while (arr.length > 0) \x7b",
          "\tarr.pop();",
          "\x7d",
          "Runs the block until the condition becomes false."] }),
   ("do",
     { detail := "Do-while loop"
       lines :=
         ["var i = 0;",
          "do \x7b",
          "\ti = i + 1;",
          "\x7d while (i < 10);",
          "Runs the block once, then repeats it while the condition holds."] }),
   ("for",
     { detail := "For loop"
       lines :=
         ["for (var i = 0; i <= 15; i = i + 1) \x7b",
          "\tSys.toast(i);",
          "\x7d",
          "The first clause declares the loop variable.",
          "The second clause is checked before every iteration.",
          "The third clause runs after every iteration.",
          "",
          "for (var item : items) \x7b",
          "\tSys.toast(item);",
          "\x7d",
          "Iterates over every element of an array."] }),
   ("fun",
     { detail := "Function declaration"
       lines :=
         ["fun increase(number) \x7b",
          "\treturn number + 1;",
          "\x7d",
          "",
          "var num = 0;",
          "num = increase(num);",
          "",
          "Parameters are separated by commas and are visible only inside the function.",
          "'return' gives the value back to the caller."] }),
   ("class",
     { detail := "Class declaration"
       lines :=
         ["class Counter(start) \x7b",
          "\tinit(start) \x7b",
          "\t\tthis.value = start;",
          "\t\x7d",
          "\tnext() \x7b",
          "\t\tthis.value = this.value + 1;",
          "\t\x7d",
          "\x7d",
          "Classes group variables together with the methods that manage them."] }),
   ("array.push",
     { detail := "Array's methods"
       lines :=
         ["Adds the value to the end of the array",
          "\tvar arr = [1, 2, 3];",
          "\tarr.push(4);",
          "\tSys.alert(arr); // [1, 2, 3, 4]"] }),
   ("array.pop",
     { detail := "Array's methods"
       lines :=
         ["Removes the last value of the array",
          "\tvar arr = [1, 2, 3];",
          "\tarr.pop();",
          "\tSys.alert(arr); // [1, 2]"] }),
   ("array.shift",
     { detail := "Array's methods"
       lines :=
         ["Removes the first value of the array",
          "\tvar arr = [1, 2, 3];",
          "\tarr.shift();",
          "\tSys.alert(arr); // [2, 3]"] }),
   ("array.unshift",
     { detail := "Array's methods"
       lines :=
         ["Inserts the value at the first index of the array",
          "\tvar arr = [1, 2, 3];",
          "\tarr.unshift(0);",
          "\tSys.alert(arr); // [0, 1, 2, 3]"] }),
   ("Sys.alert",
     { detail := "Outputs a message"
       lines :=
         ["Sys.alert(\"hello\");",
          "Shows a message with the given content to the user."] }),
   (variableKey,
     { detail := "Variable"
       lines :=
         ["This variable was declared in the code."] }),
   (functionKey,
     { detail := "Function"
       lines :=
         ["This function was declared in the code."] }),
   (classKey,
     { detail := "Class"
       lines :=
         ["This class was declared in the code."] })]

/-- The hint under a key. -/
def hint? (key : String) : Option Hint :=
  (hints.find? fun entry => entry.1 == key).map (·.2)

end MacroScript.Catalogue
