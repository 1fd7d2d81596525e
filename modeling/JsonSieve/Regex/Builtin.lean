import JsonSieve.Regex.Automaton
import JsonSieve.Regex.Engine
import JsonSieve.Regex.Search
import JsonSieve.Regex.Syntax

/-!
# The engine that programs run with

An expression has to be small enough on its own to be prepared on its own, and a list of expressions has to be
small enough together.
-/

namespace JsonSieve.Regex

def read? (source : String) : Option Form := (parse? source).map form

instance builtin : Engine where
  compile? source :=
    ((read? source).filter fun f => Automaton.fits true [f]).map fun f =>
      let scan := f.scan
      fun text => scan.isMatch text
  compileSet sources :=
    match sources.mapM read? with
    | none => .error .unreadable
    | some forms =>
      if Automaton.fits false forms then
        let scans := forms.map Form.scan
        .ok fun text k => scans[k]?.any (·.isMatch text)
      else .error (.tooLarge Automaton.sizeLimit)

theorem getElem?_of_mapM {sources : List String} {forms : List Form} (h : sources.mapM read? = some forms)
    {k : Nat} {source : String} (hsource : sources[k]? = some source) : forms[k]? = read? source := by
  induction sources generalizing forms k with
  | nil => cases hsource
  | cons head sources ih =>
    simp only [List.mapM_cons, Option.bind_eq_bind, Option.bind_eq_some_iff, Option.pure_def, Option.some.injEq] at h
    obtain ⟨f, hf, rest, hrest, rfl⟩ := h
    cases k with
    | zero =>
      cases hsource
      exact hf.symm
    | succ k => exact ih hrest hsource

theorem builtin_agrees : builtin.Agrees := by
  intro sources search hset k source isMatch hsource hone text
  obtain ⟨f, hf, rfl⟩ := Option.map_eq_some_iff.1 hone
  have hread := (Option.filter_eq_some_iff.1 hf).1
  simp only [Engine.compileSet] at hset
  split at hset
  · cases hset
  · next forms hforms =>
    split at hset
    · cases hset
      simp [getElem?_of_mapM hforms hsource, hread]
    · cases hset

end JsonSieve.Regex
