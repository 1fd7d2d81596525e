import JsonSieve.Number.Decimal
import JsonSieve.Stmt.Basic
import JsonSieve.Text.Column

/-!
# Listings of statements

Programs of statements as text: one statement per line, nested statements indented by two spaces,
expressions in prefix form. A frame lists its declarations before its body.
-/

namespace JsonSieve

def indentation (level : Nat) : String := String.ofList (List.replicate (2 * level) ' ')

/-- Patterns in a listing: literals in quotes, regular expressions between slashes. -/
def listPatterns (patterns : List NamePattern) : String :=
  let item : NamePattern → String
    | .literal name => Text.quoted name
    | .regex source => s!"/{source}/"
  "[" ++ Text.joined ", " (patterns.map item) ++ "]"

def withoutNewline (text : String) : String :=
  match text.toList.reverse with
  | '\n' :: rest => String.ofList rest.reverse
  | _ => text

mutual

def Expr.listing : Expr → String
  | .num x => s!"NUM({x.listing})"
  | .int i => s!"INT({i.toInt})"
  | .size n => s!"SIZE({n})"
  | .bool b => s!"BOOL({b})"
  | .tokenKind => "TOKTYPE"
  | .tokenNumber => "TOKNUM"
  | .tokenComplete => "TOKCOMPLETE"
  | .tokenLength => "TOKLEN"
  | .isToken kind => s!"ISTOK({kind.name})"
  | .count c => s!"COUNT(c{c})"
  | .bitTest bv bit => s!"BTEST(bv{bv}, {bit})"
  | .bitsAll bv => s!"BTESTALL(bv{bv})"
  | .bitsAny bv => s!"BTESTANY(bv{bv})"
  | .bitCount bv => s!"BCOUNT(bv{bv})"
  | .isInteger e => s!"ISINT({e.listing})"
  | .isMultiple e d => s!"MULTIPLEOF({e.listing}, {d.listing})"
  | .and a b => s!"AND({a.listing}, {b.listing})"
  | .or a b => s!"OR({a.listing}, {b.listing})"
  | .not e => s!"NOT({e.listing})"
  | .compare c a b => s!"{c.name}({a.listing}, {b.listing})"
  | .split s => s!"SPLIT(split{s})"
  | .matchCase m => s!"MATCH(dfa{m})"
  | .unique u => s!"UNIQUE(uniq{u})"
  | .temp t => s!"t{t}"
  | .seq s e => s!"SEQ({withoutNewline (s.listing 0)}, {e.listing})"

def Stmt.listing (level : Nat) : Stmt → String
  | .nop => indentation level ++ "NOP\n"
  | .valid => indentation level ++ "VALID\n"
  | .invalid reason => indentation level ++ s!"INVALID({reason.name})\n"
  | .ite condition yes no =>
    indentation level ++ s!"IF {condition.listing}\n" ++ yes.listing (level + 1)
      ++ indentation level ++ "ELSE\n" ++ no.listing (level + 1)
  | .loop id name body =>
    indentation level ++ s!"LOOP loop{id} {Text.quoted name}\n" ++ body.listing (level + 1)
  | .leave loop => indentation level ++ s!"BREAK loop{loop}\n"
  | .seq list => indentation level ++ "SEQ\n" ++ Stmt.listSeq (level + 1) list
  | .token => indentation level ++ "TOKEN\n"
  | .consume => indentation level ++ "CONSUME\n"
  | .untoken => indentation level ++ "UNTOKEN\n"
  | .frame body => indentation level ++ "FRAME\n" ++ body.listing (level + 1)
  | .counter id name => indentation level ++ s!"COUNTER c{id} {Text.quoted name}\n"
  | .matcher id m => indentation level ++ s!"MATCHER dfa{id} {listPatterns m.patterns}\n"
  | .bitvec id name size =>
    indentation level ++ s!"BITVECTOR bv{id} {Text.quoted name} {size}\n"
  | .splitList id frames =>
    indentation level ++ s!"SPLITLIST split{id}\n" ++ Stmt.listFrames (level + 1) frames
  | .uniqueSet id => indentation level ++ s!"UNIQSET uniq{id}\n"
  | .bitSet bv bit => indentation level ++ s!"BSET bv{bv} {bit}\n"
  | .bitClear bv bit => indentation level ++ s!"BCLEAR bv{bv} {bit}\n"
  | .incr c => indentation level ++ s!"INCR c{c}\n"
  | .decr c => indentation level ++ s!"DECR c{c}\n"
  | .dispatch m cases otherwise =>
    indentation level ++ s!"MATCH dfa{m}\n" ++ Stmt.listCases (level + 1) cases
      ++ indentation (level + 1) ++ "DEFAULT\n" ++ otherwise.listing (level + 2)
  | .splitBits bv s => indentation level ++ s!"SPLITVEC bv{bv} split{s}\n"
  | .block id => indentation level ++ s!"BLOCK b{id}\n"
  | .branch target => indentation level ++ s!"BRANCH b{target}\n"
  | .branchIf condition yes no =>
    indentation level ++ s!"CBRANCH {condition.listing} b{yes} b{no}\n"
  | .move t source => indentation level ++ s!"MOVE t{t} {source.listing}\n"
  | .call frame => indentation level ++ s!"CALL frame{frame}\n"
  | .branchCase t cases otherwise =>
    let listed := String.join (cases.map fun (k, target) => s!" {k}:b{target}")
    let rest := match otherwise with
      | some target => s!" default:b{target}"
      | none => ""
    indentation level ++ s!"MATCHBRANCH t{t}{listed}{rest}\n"

def Stmt.listSeq (level : Nat) : List Stmt → String
  | [] => ""
  | s :: rest => s.listing level ++ Stmt.listSeq level rest

def Stmt.listFrames (level : Nat) : List Stmt → String
  | [] => ""
  | s :: rest =>
    indentation level ++ "FRAME\n" ++ s.listing (level + 1) ++ Stmt.listFrames level rest

def Stmt.listCases (level : Nat) : List (UInt32 × Stmt) → String
  | [] => ""
  | (k, s) :: rest =>
    indentation level ++ s!"CASE {k}\n" ++ s.listing (level + 1) ++ Stmt.listCases level rest

end

def Stmt.line (s : Stmt) : String := withoutNewline (s.listing 0)

def listNumbered {α : Type} (line : Nat → α → String) (entries : List α) : String :=
  String.join (entries.zipIdx.map fun (a, i) => line i a)

def Decls.listing (d : Decls) : String :=
  listNumbered (fun i name => s!"  COUNTER c{i} {Text.quoted name}\n") d.counters
    ++ listNumbered (fun i m => s!"  MATCHER dfa{i} {listPatterns m.patterns}\n") d.matchers
    ++ listNumbered (fun i bv => s!"  BITVECTOR bv{i} {Text.quoted bv.name} {bv.size}\n") d.bitvecs
    ++ listNumbered (fun i frames =>
        let names := Text.joined ", " (frames.map fun f => s!"frame{f}")
        s!"  SPLITLIST split{i} [{names}]\n") d.splits
    ++ listNumbered (fun i (_ : Unit) => s!"  UNIQSET uniq{i}\n") (List.replicate d.uniques ())
    ++ (if d.temps = 0 then "" else s!"  TEMPS {d.temps}\n")

def Block.listing (b : Block) : String :=
  s!"  b{b.id} {Text.quoted b.name}:\n" ++ Stmt.listSeq 2 b.stmts

/-- A flat body; the markers of blocks stand out by one level. -/
def FlatBody.listing (body : FlatBody) : String :=
  String.join (body.stmts.map fun s =>
    match s with
    | .block _ => s.listing 1
    | _ => s.listing 2)

def Frame.listGraph (f : Frame (List Block)) : String :=
  f.decls.listing ++ String.join (f.body.map Block.listing)

def Frame.listFlat (f : Frame FlatBody) : String := f.decls.listing ++ f.body.listing

def listProgram {φ : Type} (listFrame : φ → String) (frames : List φ) : String :=
  listNumbered (fun i frame => s!"FRAME frame{i}\n" ++ listFrame frame) frames

def Tree.listing (tree : Tree) : String := listProgram (fun s => Stmt.listing 1 s) tree

def Graph.listing (graph : Graph) : String := listProgram Frame.listGraph graph

def Flat.listing (flat : Flat) : String := listProgram Frame.listFlat flat

end JsonSieve
