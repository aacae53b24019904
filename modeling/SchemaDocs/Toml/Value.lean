/-!
# TOML values

What a TOML document states. Of numbers with a fraction and of dates only the spelling is kept.
-/

namespace SchemaDocs.Toml

inductive Value where
  | string (s : String)
  | integer (n : Int)
  | float (spelling : List Char)
  | boolean (b : Bool)
  | datetime (spelling : List Char)
  | array (items : List Value)
  | table (entries : List (String × Value))

instance : Inhabited Value := ⟨.boolean false⟩

end SchemaDocs.Toml
