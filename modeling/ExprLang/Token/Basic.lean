import ExprLang.Span
import ExprLang.Token.Kind

/-!
# Tokens

A token is a text of a certain kind at a place in a program. Text and kind are independent, since
tokens can also be made by hand. A token stream is what is still to be read of a sequence of
tokens: past its end it goes on with the end of the input for ever.
-/

namespace ExprLang

/-- A text of a certain kind at a place in a program. -/
structure Token where
  text : String
  kind : Kind
  span : Span := Span.nowhere
deriving DecidableEq, Repr, Inhabited

namespace Token

/-- The end of the input at a place. -/
def ending (place : Span) : Token :=
  ⟨"", .endOfInput, place⟩

/-- Whether two tokens have the same text and the same kind, wherever they stand. -/
def sameAs (a b : Token) : Bool :=
  a.text == b.text && a.kind == b.kind

/-- A token without its place. -/
def unplaced (t : Token) : Token :=
  { t with span := Span.nowhere }

theorem sameAs_iff (a b : Token) : a.sameAs b = true ↔ a.unplaced = b.unplaced := by
  simp [sameAs, unplaced]

end Token

/-- The tokens still to be read, and the place of the end of the input. -/
structure TokenStream where
  pending : List Token
  endPlace : Span := Span.nowhere
deriving DecidableEq, Repr, Inhabited

namespace TokenStream

/-- The next token. -/
def head (s : TokenStream) : Token :=
  s.pending.headD (Token.ending s.endPlace)

/-- The stream behind the next token. -/
def tail (s : TokenStream) : TokenStream :=
  { s with pending := s.pending.tail }

/-- A way of taking tokens from a stream. -/
inductive Pull where
  /-- The next token, be it the end of the input. -/
  | next
  /-- All tokens that are left, and the end of the input. -/
  | rest
  /-- So many tokens, or fewer if there are fewer left; never the end of the input. -/
  | upTo (count : Nat)
deriving DecidableEq, Repr

/-- The tokens taken from a stream, and the stream behind them. -/
def pull (s : TokenStream) : Pull → List Token × TokenStream
  | .next => ([s.head], s.tail)
  | .rest => (s.pending ++ [Token.ending s.endPlace], { s with pending := [] })
  | .upTo count => (s.pending.take count, { s with pending := s.pending.drop count })

end TokenStream

end ExprLang
