import Lox.Value

/-!
# Scopes

All scopes of a running program, in the order of creation. A scope is a table of names; which
scopes lie around it is said by a `Chain`, so that chains are finite by construction. A name
means the entry of the innermost scope on the chain that has it.

## Main definitions

* `Table`: the names of one scope and their values.
* `Closure.bindings`: the table of a call's own scope.
* `Scopes`: all scopes.
* `Scopes.owner?`: the scope that a name belongs to.
* `Scopes.get?`, `Scopes.assign?`, `Scopes.define`: reading and writing.
-/

namespace Lox

/-- The names of one scope and their values, in the order of definition. -/
abbrev Table := List (String × Value)

namespace Table

/-- The value of a name. -/
def get? (t : Table) (name : String) : Option Value := t.lookup name

/-- The table in which a name has this value. -/
def set : Table → String → Value → Table
  | [], name, v => [(name, v)]
  | (n, w) :: t, name, v => if n = name then (n, v) :: t else (n, w) :: set t name v

theorem get?_set (t : Table) (name : String) (v : Value) (name' : String) :
    (t.set name v).get? name' = if name' = name then some v else t.get? name' := by
  fun_induction Table.set t name v <;> grind [Table.get?]

end Table

/-- The names of a call's own scope: parameters and arguments, paired as far as both go. -/
def Closure.bindings (f : Closure) (arguments : List Value) : Table :=
  (f.params.zip arguments).foldl (fun t (p, v) => t.set p.lexeme v) []

/-- All scopes, in the order of creation. -/
structure Scopes where
  tables : Array Table
  deriving Inhabited

namespace Scopes

/-- No scope. -/
def empty : Scopes := ⟨#[]⟩

/-- The number that the next scope gets. -/
def next (s : Scopes) : ScopeId := s.tables.size

/-- The scopes with a further one. -/
def push (s : Scopes) (t : Table) : Scopes := ⟨s.tables.push t⟩

/-- The table of a scope. -/
def table (s : Scopes) (id : ScopeId) : Table := s.tables[id]?.getD []

/-- The value of a name in the table of one scope. -/
def local? (s : Scopes) (id : ScopeId) (name : String) : Option Value := (s.table id).get? name

/-- The innermost scope of a chain that has a name. -/
def owner? (s : Scopes) (c : Chain) (name : String) : Option ScopeId :=
  c.scopes.find? fun id => (s.local? id name).isSome

/-- The value of a name. -/
def get? (s : Scopes) (c : Chain) (name : String) : Option Value :=
  c.scopes.findSome? fun id => s.local? id name

/-- Gives a name a value in one scope. -/
def define (s : Scopes) (id : ScopeId) (name : String) (v : Value) : Scopes :=
  ⟨s.tables.modify id fun t => t.set name v⟩

/-- Gives a name a new value in the scope it belongs to. -/
def assign? (s : Scopes) (c : Chain) (name : String) (v : Value) : Option Scopes :=
  (s.owner? c name).map fun id => s.define id name v

@[simp]
theorem next_push (s : Scopes) (t : Table) : (s.push t).next = s.next + 1 := by
  simp [next, push]

@[simp]
theorem next_define (s : Scopes) (id : ScopeId) (name : String) (v : Value) :
    (s.define id name v).next = s.next := by
  simp [next, define]

theorem table_push (s : Scopes) (t : Table) (id : ScopeId) :
    (s.push t).table id = if id = s.next then t else s.table id := by
  simp only [table, push, next]
  grind

theorem table_push_next (s : Scopes) (t : Table) : (s.push t).table s.next = t :=
  (table_push s t s.next).trans (if_pos rfl)

theorem table_push_of_ne {s : Scopes} {id : ScopeId} (h : id ≠ s.next) (t : Table) :
    (s.push t).table id = s.table id :=
  (table_push s t id).trans (if_neg h)

theorem table_of_next_le {s : Scopes} {id : ScopeId} (h : s.next ≤ id) : s.table id = [] := by
  simp only [table, next] at *
  grind

theorem table_define (s : Scopes) (id : ScopeId) (name : String) (v : Value) (id' : ScopeId) :
    (s.define id name v).table id'
      = if id' = id ∧ id < s.next then (s.table id).set name v else s.table id' := by
  simp only [table, define, next]
  grind

theorem table_define_of_ne {id id' : ScopeId} (h : id' ≠ id) (s : Scopes) (name : String)
    (v : Value) : (s.define id name v).table id' = s.table id' :=
  (table_define s id name v id').trans (if_neg fun hid => h hid.1)

theorem local?_define {s : Scopes} {id : ScopeId} (h : id < s.next) (name : String) (v : Value)
    (id' : ScopeId) (name' : String) :
    (s.define id name v).local? id' name'
      = if id' = id ∧ name' = name then some v else s.local? id' name' := by
  simp only [local?, define, table, next] at *
  grind [Table.get?_set]

end Scopes

end Lox
