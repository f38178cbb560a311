import MacroScript.Diagnostic.Basic
import MacroScript.Text.Word
import MacroScript.Token.Group

/-!
# Function and class headers

A header is `fun name(parameters)` or `class Name(parameters)` with a block after it.
-/
namespace MacroScript

/-- Report the keyword `function` of other languages. -/
def functionKeywordFindings (code : Text) : List Finding :=
  match Text.wholeWords "function".toList code with
  | [] => []
  | word :: _ =>
    [⟨word.offset, word.offset + Text.byteSize "function".toList, .functionKeyword⟩]

/-- Report a missing name, or one that is no name of the language. The name stands between the
keyword and the bracket that is token number `index`. -/
def headerNameFindings (code : Text) (header : HeaderKind) (keyword opener : Token) (index : Nat) :
    List Finding :=
  if index = 1 then [⟨opener.offset, opener.stop, .skippedName header⟩]
  else
    let region := Text.between keyword.stop opener.offset code
    let (start, stop) := Text.coreSpan region
    if (badNameChar? true (Text.between start stop region)).isSome then
      [⟨keyword.stop + start, keyword.stop + stop, .headerName header⟩]
    else []

/-- Check a header that starts with `keyword`. -/
def headerLineFindings (view : RuleView) (header : HeaderKind) (keyword : Token)
    (rest : List Token) : List Finding :=
  let tokens := keyword :: rest
  if rest.all fun t => t.kind = .semicolon then [⟨keyword.offset, view.codeEnd, .loneHeader⟩]
  else
    match tokens.findIdx? fun t => t.kind = .opener .round with
    | none => []
    | some index =>
      match tokens[index]? with
      | none => []
      | some opener =>
        headerNameFindings view.code header keyword opener index ++
          view.blockFindings ((Token.partner? tokens index).bind (tokens[·]?))

/-- Check the function and class headers of a line. -/
def headerFindings (view : RuleView) : List Finding :=
  functionKeywordFindings view.code ++
    match view.tokens with
    | [] => []
    | keyword :: rest =>
      if keyword.isWord "fun" then headerLineFindings view .function keyword rest
      else if keyword.isWord "class" then headerLineFindings view .classDefinition keyword rest
      else []

end MacroScript
