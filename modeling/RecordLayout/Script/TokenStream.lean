import RecordLayout.Script.Tokenize

/-!
# Streams of tokens

The tokens of a script handed out one by one, with the possibility to start again.
-/

namespace RecordLayout.Script

/-- The tokens of a script and those of them that are still to be handed out. -/
structure TokenStream where
  all : List Token
  left : List Token

namespace TokenStream

/-- The tokens of a script, none of them handed out. -/
def ofSource (source : String) : Except Error TokenStream :=
  (tokenize source).map fun tokens => ⟨tokens, tokens⟩

/-- The next token, if there is one, and the stream behind it. -/
def next (s : TokenStream) : Option Token × TokenStream :=
  (s.left.head?, { s with left := s.left.tail })

/-- The stream from its start. -/
def reset (s : TokenStream) : TokenStream := { s with left := s.all }

end TokenStream

end RecordLayout.Script
