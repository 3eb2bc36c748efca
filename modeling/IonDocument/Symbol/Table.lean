import IonDocument.Symbol.Token
import Std.Data.TreeMap

/-! # Symbol tables

A table maps ids to texts. Ids 1 to 9 belong to the system symbols and the local symbols take
the ids from 10 on; a local slot may be without text. Beside the slots a table keeps the ids
of the local texts, so that a text is found without a search; `idsOf` says which ids these
are, and every table carries the proof that it holds them.
-/
namespace IonDocument
namespace Table

def systemSymbols : List String :=
  ["$ion", "$ion_1_0", "$ion_symbol_table", "name", "version", "imports", "symbols", "max_id",
    "$ion_shared_symbol_table"]

def systemId? (text : String) : Option Nat := (systemSymbols.idxOf? text).map (· + 1)

def firstLocalId : Nat := systemSymbols.length + 1

/-- Notes the text of one local slot, unless it is a system text or was noted before. -/
def note (ids : Std.TreeMap String Nat) (slot : Option String × Nat) : Std.TreeMap String Nat :=
  match slot.1 with
  | none => ids
  | some text => if (systemId? text).isSome then ids else ids.insertIfNew text slot.2

/-- The ids by which local texts are found: each text has the id of its first slot. -/
def idsOf (locals : List (Option String)) : Std.TreeMap String Nat :=
  (locals.zipIdx firstLocalId).foldl note ∅

end Table

structure Table where
  locals : Array (Option String)
  ids : Std.TreeMap String Nat
  ids_eq : ids = Table.idsOf locals.toList

namespace Table

def ofLocals (locals : List (Option String)) : Table :=
  ⟨locals.toArray, idsOf locals, rfl⟩

def system : Table := ofLocals []

instance : Inhabited Table := ⟨system⟩

def maxId (t : Table) : Nat := systemSymbols.length + t.locals.size

/-- The text of an id. Id 0 stands for an unknown text. -/
def text? (t : Table) : Nat → Option String
  | 0 => none
  | i + 1 =>
    if i < systemSymbols.length then systemSymbols[i]?
    else (t.locals[i - systemSymbols.length]?).join

/-- The lowest id of a text. -/
def id? (t : Table) (text : String) : Option Nat :=
  systemId? text <|> t.ids[text]?

/-- The text of a token: its own, or else the one of its id. -/
def textOf? (t : Table) (token : Token) : Option String :=
  token.text <|> token.id.bind t.text?

/-- Equality by content: the same slots and the same ids by text. -/
def same (a b : Table) : Bool := a.locals == b.locals && a.ids == b.ids

theorem eq_of_locals_eq {a b : Table} (h : a.locals = b.locals) : a = b := by
  cases a with
  | mk la ia ha =>
    cases b with
    | mk lb ib hb =>
      dsimp only at h
      subst h
      rw [← hb] at ha
      subst ha
      rfl

instance : DecidableEq Table := fun a b =>
  if h : a.locals = b.locals then .isTrue (eq_of_locals_eq h)
  else .isFalse fun e => h (congrArg Table.locals e)

@[simp] theorem locals_ofLocals (xs : List (Option String)) :
    (ofLocals xs).locals = xs.toArray := rfl

@[simp] theorem maxId_ofLocals (xs : List (Option String)) :
    (ofLocals xs).maxId = 9 + xs.length := rfl

end Table
end IonDocument
