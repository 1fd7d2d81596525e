/-!
# Columns

Listings and reports line up numbers and names by padding them with spaces to a least width.
-/

namespace JsonSieve.Text

def padLeft (width : Nat) (text : String) : String :=
  String.ofList (List.replicate (width - text.length) ' ') ++ text

def padRight (width : Nat) (text : String) : String :=
  text ++ String.ofList (List.replicate (width - text.length) ' ')

def joined (separator : String) (texts : List String) : String := separator.intercalate texts

end JsonSieve.Text
