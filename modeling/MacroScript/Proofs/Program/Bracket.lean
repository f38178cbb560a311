import MacroScript.Proofs.Program.Words

/-!
# Bracketed headers

A header is a line of pieces with one pair of round brackets, `front ( inner ) back`. The rules find
its closing bracket by counting, and cut the line at the two brackets. **The bracket that is found
is the one of the header** (`Bracketed.closer_eq`), so what they cut out is `inner`, and what comes
after it is `back`.
-/
namespace MacroScript

/-! ## 1. Closing brackets among tokens -/

namespace Token

variable {bracket : Bracket} {opener closer : Token} {front inner more : List Token}

/-- Tokens other than brackets of the kind are passed over, so the count stays at one until the
closing bracket comes. -/
theorem closeAfter_append
    (hinner : ∀ t ∈ inner, t.kind ≠ .opener bracket ∧ t.kind ≠ .closer bracket)
    (hcloser : closer.kind = .closer bracket) :
    closeAfter bracket 1 (inner ++ closer :: more) = some inner.length := by
  induction inner with
  | nil => simp [closeAfter, hcloser]
  | cons t ts ih =>
    obtain ⟨hopen, hclose⟩ := hinner t List.mem_cons_self
    rw [List.cons_append, closeAfter, if_neg hopen, if_neg hclose,
      ih fun u hu => hinner u (List.mem_cons_of_mem _ hu)]
    rfl

/-- **The partner of an opening bracket** is the first closing one, if no other stands between. -/
theorem partner?_append (hopener : opener.kind = .opener bracket)
    (hinner : ∀ t ∈ inner, t.kind ≠ .opener bracket ∧ t.kind ≠ .closer bracket)
    (hcloser : closer.kind = .closer bracket) :
    partner? (front ++ opener :: (inner ++ closer :: more)) front.length =
      some (inner.length + (front.length + 1)) := by
  rw [partner?, List.drop_left]
  simp only [hopener, closeAfter_append hinner hcloser, Option.map_some]

theorem getElem?_closer :
    (front ++ opener :: (inner ++ closer :: more))[inner.length + (front.length + 1)]? =
      some closer := by
  rw [List.getElem?_append_right (by omega),
    show inner.length + (front.length + 1) - front.length = inner.length + 1 by omega]
  simp

end Token

/-! ## 2. Brackets among pieces -/

/-- Whether the piece is a round bracket. Between the brackets of a header there is none. -/
def Piece.isRound : Piece → Bool
  | mark (.opener .round) | mark (.closer .round) => true
  | _ => false

/-- So none of the tokens between them is one. -/
theorem kind_of_mem_tokensOf {ps : List Piece} (h : ∀ p ∈ ps, p.isRound = false) {offset : Nat} :
    ∀ t ∈ tokensOf offset ps, t.kind ≠ .opener .round ∧ t.kind ≠ .closer .round := by
  intro t ht
  obtain ⟨p, hp, hkind, -⟩ := exists_piece_of_mem_tokensOf ht
  have hround := h p hp
  constructor <;>
  · intro ht
    rw [ht] at hkind
    cases p with
    | mark m => cases m <;> simp_all [Piece.kind?, Mark.kind, Piece.isRound]
    | space | name | number | sign | literal => simp [Piece.kind?] at hkind

/-- The pieces of a header. -/
def headerPieces (front inner back : List Piece) : List Piece :=
  front ++ .mark (.opener .round) :: (inner ++ .mark (.closer .round) :: back)

/-- The line is a header `front ( inner ) back` behind its indentation. Both its characters and its
tokens are told, since the rules go from the one to the other. -/
structure Bracketed (view : RuleView) (indent : Text) (front inner back : List Piece) : Prop where
  code : view.code = indent ++ textOf (headerPieces front inner back)
  tokens : view.tokens = tokensOf (Text.byteSize indent) (headerPieces front inner back)
  isFlat : ∀ p ∈ inner, p.isRound = false

/-- The opening bracket of a header. -/
def openerOf (indent : Text) (front : List Piece) : Token :=
  ⟨.opener .round, ['('], Text.byteSize (indent ++ textOf front)⟩

/-- The closing bracket of a header. -/
def closerOf (indent : Text) (front inner : List Piece) : Token :=
  ⟨.closer .round, [')'], Text.byteSize (indent ++ textOf front ++ ['('] ++ textOf inner)⟩

/-- The tokens of a header from its opening bracket on. The rules drop what stands before it, or
keep it, so it is left out here. -/
def bracketTokens (indent : Text) (front inner back : List Piece) : List Token :=
  openerOf indent front :: (tokensOf (openerOf indent front).stop inner ++
    closerOf indent front inner :: tokensOf (closerOf indent front inner).stop back)

namespace Bracketed

variable {view : RuleView} {indent : Text} {front inner back : List Piece}
  (h : Bracketed view indent front inner back)
include h

/-- The tokens of the whole line. -/
theorem tokens_eq :
    view.tokens =
      tokensOf (Text.byteSize indent) front ++ bracketTokens indent front inner back := by
  have hopener (rest : List Piece) : tokensOf (Text.byteSize (indent ++ textOf front))
      (.mark (.opener .round) :: rest) =
        openerOf indent front :: tokensOf (openerOf indent front).stop rest := rfl
  have hcloser : tokensOf (closerOf indent front inner).offset (.mark (.closer .round) :: back) =
      closerOf indent front inner :: tokensOf (closerOf indent front inner).stop back := rfl
  have hoffset : (openerOf indent front).stop + Text.byteSize (textOf inner) =
      (closerOf indent front inner).offset := by
    simp only [openerOf, closerOf, Token.stop, Text.byteSize_append]
  rw [h.tokens, headerPieces, tokensOf_append, ← Text.byteSize_append, hopener, tokensOf_append,
    hoffset, hcloser, bracketTokens]

/-- **The bracket that closes a header**, whatever tokens stand before it. Some rules count from the
start of the line and others from the bracket. -/
theorem closer_eq (before : List Token) :
    Token.partner? (before ++ bracketTokens indent front inner back) before.length =
      some ((tokensOf (openerOf indent front).stop inner).length + (before.length + 1)) ∧
    (Token.partner? (before ++ bracketTokens indent front inner back) before.length).bind
      ((before ++ bracketTokens indent front inner back)[·]?) =
        some (closerOf indent front inner) := by
  have hpartner : Token.partner? (before ++ bracketTokens indent front inner back) before.length =
      some ((tokensOf (openerOf indent front).stop inner).length + (before.length + 1)) :=
    Token.partner?_append rfl (kind_of_mem_tokensOf h.isFlat) rfl
  refine ⟨hpartner, ?_⟩
  rw [hpartner, Option.bind_some]
  exact Token.getElem?_closer

theorem code_eq :
    view.code = indent ++ textOf front ++ ['('] ++ (textOf inner ++ ([')'] ++ textOf back)) := by
  rw [h.code, headerPieces]
  simp [Mark.char]

/-- **What stands between the brackets** is cut out by their offsets. -/
theorem between_eq :
    Text.between (openerOf indent front).stop (closerOf indent front inner).offset view.code =
      textOf inner := by
  rw [h.code_eq, closerOf, Token.stop, openerOf, ← Text.byteSize_append,
    Text.byteSize_append _ (textOf inner)]
  exact Text.between_append _ _ _

/-- **What comes after them**, without the white space around it. -/
theorem rest_eq : view.rest (closerOf indent front inner).stop = Text.trim (textOf back) := by
  have hcode := h.code_eq
  rw [← List.append_assoc, ← List.append_assoc] at hcode
  rw [RuleView.rest, show view.line.code = view.code from rfl, hcode, closerOf, Token.stop,
    ← Text.byteSize_append, Text.dropBytes_byteSize_append]

end Bracketed

/-! ## 3. Headers of blocks -/

section Block

variable {view : RuleView} {indent : Text} {front inner : List Piece}
  (h : Bracketed view indent front inner [.space, .mark (.opener .curly)])
include h

theorem Bracketed.rest_block : view.rest (closerOf indent front inner).stop = ['{'] := by
  rw [h.rest_eq]
  decide

/-- The block of a header is found, as its brace comes right after the brackets. -/
theorem Bracketed.blockFindings_eq_nil :
    view.blockFindings (some (closerOf indent front inner)) = [] := by
  have hfollows : view.blockFollows (closerOf indent front inner).stop := by
    rw [RuleView.blockFollows, h.rest_block]
    rfl
  rw [RuleView.blockFindings, if_pos hfollows]

end Block

/-- A line of a program that is a header, if its pieces are those of one. Its tokens are its pieces
in any case. -/
theorem bracketed_programLine {view : RuleView} {l : ProgramLine} (hcode : view.code = l.code)
    {front inner back : List Piece} (hpieces : l.form.pieces = headerPieces front inner back)
    (hflat : ∀ p ∈ inner, p.isRound = false) : Bracketed view l.indent front inner back where
  code := by rw [hcode, ProgramLine.code, hpieces]
  tokens := by rw [tokens_programLine hcode, hpieces]
  isFlat := hflat

end MacroScript
