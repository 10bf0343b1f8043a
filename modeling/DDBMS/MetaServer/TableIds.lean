import Mathlib.Logic.Function.Basic
import DDBMS.Lib.Run
import DDBMS.MetaServer.CatalogRoundTrip
import DDBMS.MetaServer.Placement

/-!
# `MetaServer.TableIds` — the ids and names of tables

`CreateTable` and `CreatePartitionTable` take the id of a new table from the `next_oid_` of the database; both hold the mutex
of the database from the test for the name on. The catalog is saved between requests, and read again, any number of times.

The tables of a database are numbered from `0` on, and its `next_oid_` is how many there are (`Counted`), both in an `int32_t`.
So ids are different, and smaller than `next_oid_`, up to the `2 ^ 31 - 1` tables that an `int32_t` can count
(`tables_unique`); the next table makes `next_oid_` negative (`next_oid_wraps`).
-/

namespace DDBMS

/-- Different tables have different ids, smaller than the next one. -/
structure DbMetaServer.UniqueOids (db : DbMetaServer) : Prop where
  oid_lt : ∀ tab_name tms, db.tabs_.find? tab_name = some tms → tms.oid < db.next_oid_
  inj : ∀ tab_name tms tab_name' tms', db.tabs_.find? tab_name = some tms → db.tabs_.find? tab_name' = some tms' →
    tms.oid = tms'.oid → tab_name = tab_name'

namespace MetaServer

/-! ## Requests with their responses, and the file -/

/-- `success`, with the id of the table that was asked for. -/
structure Response where
  db_name : Bytes
  tab_name : Bytes
  oid : table_oid_t
  deriving Repr, DecidableEq

/-- One request; of the responses only that a table has been created. -/
def respond (m : MetaServer) : Event → Option (MetaServer × Option Response)
  | .CreateTable order location request => (m.CreateTable order location request).map fun res =>
    (res.1, res.2.map (Response.mk request.db_name request.tab_name))
  | .CreatePartitionTable order request => (m.CreatePartitionTable order request).map fun res =>
    (res.1, res.2.map (Response.mk request.db_name request.tab_name))
  | .CreateDataBase order db_name => (m.CreateDataBase order db_name).map fun res => (res.1, none)
  | .NodeRegister order ip request => (m.NodeRegister order ip request).map fun m' => (m', none)

/-- The requests are those of `handle`. -/
theorem handle_eq_respond (m : MetaServer) (e : Event) : m.handle e = (m.respond e).map Prod.fst := by
  cases e with
  | CreateDataBase | CreateTable | CreatePartitionTable =>
      rw [handle, respond, Option.map_map]
      rfl
  | NodeRegister =>
      rw [handle, respond, Option.map_map]
      exact Option.map_id'.symm

/-- The catalog, and the catalog whose stream is in the file, if there is one. -/
structure Server where
  meta_server_ : MetaServer := {}
  saved : Option MetaServer := none

inductive Act where
  | request (e : Event) (res : Option Response)
  | close_meta_server
  | open_meta_server

/-- The catalog that is read is the one that was saved: the stream has been read back correctly. -/
inductive Serve : Server → Act → Server → Prop where
  | request {m m' : MetaServer} {saved : Option MetaServer} {e : Event} {res : Option Response} :
      m.respond e = some (m', res) → Serve ⟨m, saved⟩ (.request e res) ⟨m', saved⟩
  | close_meta_server {m : MetaServer} {saved : Option MetaServer} : Serve ⟨m, saved⟩ .close_meta_server ⟨m, some m⟩
  | open_meta_server {m m₁ m₂ : MetaServer} {is : IStream} : readMetaServer ⟨textOf m₁.out, []⟩ = some (m₂, is) →
      m₁.Same m₂ → Serve ⟨m, some m₁⟩ .open_meta_server ⟨m₂, some m₁⟩

/-- The table of a response is new, and all other tables are as they were. It has the id of the response, and no other table
    has, up to the `2 ^ 31 - 1` tables. -/
structure Adds (m : MetaServer) (res : Response) (m' : MetaServer) : Prop where
  new : m.table? res.db_name res.tab_name = none
  created : (m'.table? res.db_name res.tab_name).map TabMetaServer.oid = some res.oid
  only : ∀ db, m'.db_map_.find? res.db_name = some db → db.tabs_.size < 2 ^ 31 → ∀ tab_name tms,
    db.tabs_.find? tab_name = some tms → tms.oid = res.oid → tab_name = res.tab_name
  others : ∀ db_name tab_name, (db_name, tab_name) ≠ (res.db_name, res.tab_name) →
    m'.table? db_name tab_name = m.table? db_name tab_name

/-! ## What a request does to the databases -/

section Requests

variable {m m' : MetaServer} {db : DbMetaServer} {tms : TabMetaServer} {order : Order Bytes TabMetaServer}

/-- A database that is not there is as empty as a new one. -/
def database (m : MetaServer) (db_name : Bytes) : DbMetaServer :=
  (m.db_map_.find? db_name).getD ⟨0, db_name, .empty⟩

theorem database_eq {db_name : Bytes} (h : m.db_map_.find? db_name = some db) : m.database db_name = db := by
  rw [database, h, Option.getD_some]

theorem table?_eq_database (m : MetaServer) (db_name tab_name : Bytes) :
    m.table? db_name tab_name = (m.database db_name).tabs_.find? tab_name := by
  rw [table?, database]
  cases m.db_map_.find? db_name <;> rfl

/-- One table more, with the next id. -/
structure Extended (db : DbMetaServer) (tab_name : Bytes) (db' : DbMetaServer) : Prop where
  new : tab_name ∉ db.tabs_.keys
  next_oid_ : db'.next_oid_ = db.next_oid_ + 1
  tabs_ : ∃ order tms, db.tabs_.assign order tab_name tms = some db'.tabs_ ∧ tms.oid = db.next_oid_

/-- The database of the response has one table more, and all other databases are as they were. -/
structure Grown (m : MetaServer) (res : Response) (m' : MetaServer) : Prop where
  oid : res.oid = (m.database res.db_name).next_oid_
  extended : Extended (m.database res.db_name) res.tab_name (m'.database res.db_name)
  others : ∀ db_name, db_name ≠ res.db_name → m'.database db_name = m.database db_name

theorem addTable_grown {nodes : UnorderedMap Bytes Node} {db_name : Bytes} (hdb : m.db_map_.find? db_name = some db)
    (hnew : tms.name ∉ db.tabs_.keys) (hoid : tms.oid = db.next_oid_)
    (h : { m with ip_node_map_ := nodes }.addTable order db db_name tms = some m') :
    Grown m ⟨db_name, tms.name, db.next_oid_⟩ m' := by
  obtain ⟨tabs_, hassign, hres⟩ := Option.bind_eq_some_iff.mp h
  obtain rfl := Option.some.inj hres
  have hdb' := UnorderedMap.find?_modify_self (m := m.db_map_) (k := db_name) fun _ =>
    { db with next_oid_ := db.next_oid_ + 1, tabs_ := tabs_ }
  rw [hdb, Option.map_some] at hdb'
  constructor
  · rw [database_eq hdb]
  · rw [database_eq hdb, database_eq hdb']
    exact ⟨hnew, rfl, order, tms, hassign, hoid⟩
  · intro db_name' hne
    rw [database, database, UnorderedMap.find?_modify_ne _ hne]

/-- Without a table id in the response, nothing happens. -/
theorem CreateTable_response {location : table_oid_t × DuplicateType} {request : CreateTableRequest} {res : Option table_oid_t}
    (h : m.CreateTable order location request = some (m', res)) :
    res.elim (m' = m) fun oid => Grown m ⟨request.db_name, request.tab_name, oid⟩ m' := by
  rcases CreateTable_cases h with ⟨rfl, rfl⟩ | ⟨db, col_info, hdb, hnew, -, hadd, rfl⟩
  · rfl
  · exact addTable_grown hdb hnew rfl hadd

theorem CreatePartitionTable_response {request : CreatePartitonTableRequest} {res : Option table_oid_t}
    (h : m.CreatePartitionTable order request = some (m', res)) :
    res.elim (m' = m) fun oid => Grown m ⟨request.db_name, request.tab_name, oid⟩ m' := by
  rcases CreatePartitionTable_cases h with ⟨rfl, rfl⟩ | ⟨db, col_info, partitions, nodes, locs, hdb, hnew, -, -, -, hadd, rfl⟩
  · rfl
  · exact addTable_grown hdb hnew rfl hadd

/-- A new database is as one that is not there. -/
theorem CreateDataBase_database {order : Order Bytes DbMetaServer} {db_name : Bytes} {b : Bool}
    (h : m.CreateDataBase order db_name = some (m', b)) (name : Bytes) : m'.database name = m.database name := by
  rcases CreateDataBase_cases h with rfl | ⟨db_map_, hnew, hassign, rfl⟩
  · rfl
  · by_cases hname : name = db_name
    · subst hname
      rw [database, database, UnorderedMap.find?_assign_self hassign, UnorderedMap.find?_eq_none_iff.mpr hnew]
      rfl
    · rw [database, database, UnorderedMap.find?_assign_ne hassign hname]

theorem NodeRegister_database {order : Order Bytes Node} {ip : Bytes} {request : RegisterRequest}
    (h : m.NodeRegister order ip request = some m') (name : Bytes) : m'.database name = m.database name := by
  rcases NodeRegister_cases h with rfl | ⟨nodes, -, -, rfl⟩
  · rfl
  · rfl

/-- **A response says what has happened**: a table was created, or all databases have the tables that they had. -/
theorem respond_spec {e : Event} {res : Option Response} (h : m.respond e = some (m', res)) :
    res.elim (∀ db_name, m'.database db_name = m.database db_name) fun res => Grown m res m' := by
  cases e with
  | CreateTable order location request =>
      obtain ⟨⟨m₁, oid?⟩, hcreate, hres⟩ := Option.map_eq_some_iff.mp h
      obtain ⟨rfl, rfl⟩ := Prod.mk.inj hres
      have hresponse := CreateTable_response hcreate
      cases oid? with
      | none =>
          obtain rfl : m₁ = m := hresponse
          exact fun _ => rfl
      | some oid => exact hresponse
  | CreatePartitionTable order request =>
      obtain ⟨⟨m₁, oid?⟩, hcreate, hres⟩ := Option.map_eq_some_iff.mp h
      obtain ⟨rfl, rfl⟩ := Prod.mk.inj hres
      have hresponse := CreatePartitionTable_response hcreate
      cases oid? with
      | none =>
          obtain rfl : m₁ = m := hresponse
          exact fun _ => rfl
      | some oid => exact hresponse
  | CreateDataBase order db_name =>
      obtain ⟨⟨m₁, b⟩, hcreate, hres⟩ := Option.map_eq_some_iff.mp h
      obtain ⟨rfl, rfl⟩ := Prod.mk.inj hres
      exact CreateDataBase_database hcreate
  | NodeRegister order ip request =>
      obtain ⟨m₁, hregister, hres⟩ := Option.map_eq_some_iff.mp h
      obtain ⟨rfl, rfl⟩ := Prod.mk.inj hres
      exact NodeRegister_database hregister

/-- The table of a response is the new one, and the only one with its id if the ids are unique. -/
theorem Grown.adds {res : Response} (h : Grown m res m')
    (hunique : ∀ db, m'.db_map_.find? res.db_name = some db → db.tabs_.size < 2 ^ 31 → db.UniqueOids) : m.Adds res m' := by
  obtain ⟨order, tms, hassign, hoid⟩ := h.extended.tabs_
  have htms := UnorderedMap.find?_assign_self hassign
  constructor
  · rw [table?_eq_database, UnorderedMap.find?_eq_none_iff]
    exact h.extended.new
  · rw [table?_eq_database, htms, Option.map_some, hoid, h.oid]
  · intro db hdb hsize tab_name tms' htms' hoid'
    rw [database_eq hdb] at htms
    exact (hunique db hdb hsize).inj tab_name tms' res.tab_name tms htms' htms (by rw [hoid', h.oid, hoid])
  · intro db_name tab_name hne
    rw [table?_eq_database, table?_eq_database]
    by_cases hdb : db_name = res.db_name
    · rw [hdb] at hne ⊢
      refine UnorderedMap.find?_assign_ne hassign fun htab => ?_
      rw [htab] at hne
      exact hne rfl
    · rw [h.others db_name hdb]

end Requests

/-! ## Counted tables -/

/-- The tables have different numbers, smaller than their count; an id is a number in an `int32_t`. -/
structure Counted (db : DbMetaServer) (number : Bytes → Nat) : Prop where
  next_oid_ : db.next_oid_ = Int32.ofNat db.tabs_.size
  lt : ∀ tab_name ∈ db.tabs_.keys, number tab_name < db.tabs_.size
  inj : ∀ tab_name ∈ db.tabs_.keys, ∀ tab_name' ∈ db.tabs_.keys, number tab_name = number tab_name' → tab_name = tab_name'
  oid : ∀ tab_name tms, db.tabs_.find? tab_name = some tms → tms.oid = Int32.ofNat (number tab_name)

section Counted

variable {db db' : DbMetaServer} {number : Bytes → Nat} {tab_name : Bytes}

theorem counted_empty (db_name : Bytes) : Counted ⟨0, db_name, .empty⟩ number where
  next_oid_ := rfl
  lt := fun _ hkey => absurd hkey List.not_mem_nil
  inj := fun _ hkey => absurd hkey List.not_mem_nil
  oid := fun _ _ htms => absurd htms nofun

/-- The catalog that is read may have another order. -/
theorem Counted.same (h : Counted db number) (hsame : db.Same db') : Counted db' number := by
  have hsize := UnorderedMap.size_congr hsame.tabs_
  have hkeys : ∀ tab_name, tab_name ∈ db'.tabs_.keys → tab_name ∈ db.tabs_.keys := by
    intro tab_name
    rw [← not_imp_not, ← UnorderedMap.find?_eq_none_iff, ← UnorderedMap.find?_eq_none_iff, hsame.tabs_]
    exact id
  constructor
  · rw [← hsame.next_oid_, h.next_oid_, hsize]
  · intro tab_name hkey
    rw [← hsize]
    exact h.lt tab_name (hkeys tab_name hkey)
  · exact fun tab_name hkey tab_name' hkey' => h.inj tab_name (hkeys tab_name hkey) tab_name' (hkeys tab_name' hkey')
  · intro tab_name tms htms
    rw [← hsame.tabs_] at htms
    exact h.oid tab_name tms htms

/-- **A new table gets the next number.** -/
theorem Counted.extended (h : Counted db number) (hext : Extended db tab_name db') :
    Counted db' (Function.update number tab_name db.tabs_.size) := by
  obtain ⟨order, tms, hassign, hoid⟩ := hext.tabs_
  have hsize := UnorderedMap.size_assign_of_not_mem hext.new hassign
  -- a key is the new one, or an old one with its number
  have hkeys : ∀ name ∈ db'.tabs_.keys, name = tab_name ∨ name ≠ tab_name ∧ name ∈ db.tabs_.keys :=
    fun _ hkey => (UnorderedMap.mem_keys_assign hassign).mp hkey
  constructor
  · rw [hext.next_oid_, h.next_oid_, hsize, Int32.ofNat_add]
    rfl
  · intro name hkey
    rw [hsize]
    rcases hkeys name hkey with rfl | ⟨hne, hold⟩
    · rw [Function.update_self]
      exact Nat.lt_succ_self _
    · rw [Function.update_of_ne hne]
      exact Nat.lt_succ_of_lt (h.lt name hold)
  · intro name hkey name' hkey' heq
    rcases hkeys name hkey with rfl | ⟨hne, hold⟩
    · rcases hkeys name' hkey' with rfl | ⟨hne', hold'⟩
      · rfl
      · rw [Function.update_self, Function.update_of_ne hne'] at heq
        exact absurd heq.symm (Nat.ne_of_lt (h.lt name' hold'))
    · rcases hkeys name' hkey' with rfl | ⟨hne', hold'⟩
      · rw [Function.update_self, Function.update_of_ne hne] at heq
        exact absurd heq (Nat.ne_of_lt (h.lt name hold))
      · rw [Function.update_of_ne hne, Function.update_of_ne hne'] at heq
        exact h.inj name hold name' hold' heq
  · intro name tms' htms
    by_cases hname : name = tab_name
    · subst hname
      obtain rfl := Option.some.inj (htms.symm.trans (UnorderedMap.find?_assign_self hassign))
      rw [Function.update_self, hoid, h.next_oid_]
    · rw [UnorderedMap.find?_assign_ne hassign hname] at htms
      rw [Function.update_of_ne hname]
      exact h.oid name tms' htms

/-- **Up to `2 ^ 31 - 1` tables**, the ids are the numbers. -/
theorem Counted.uniqueOids (h : Counted db number) (hsize : db.tabs_.size < 2 ^ 31) : db.UniqueOids := by
  have hoid : ∀ tab_name tms, db.tabs_.find? tab_name = some tms → tms.oid.toInt = number tab_name := by
    intro tab_name tms htms
    rw [h.oid tab_name tms htms]
    exact Int32.toInt_ofNat_of_lt ((h.lt tab_name (UnorderedMap.mem_keys_of_find? htms)).trans hsize)
  constructor
  · intro tab_name tms htms
    rw [Int32.lt_iff_toInt_lt, hoid tab_name tms htms, h.next_oid_, Int32.toInt_ofNat_of_lt hsize]
    exact_mod_cast h.lt tab_name (UnorderedMap.mem_keys_of_find? htms)
  · intro tab_name tms tab_name' tms' htms htms' heq
    have hnumbers := congrArg Int32.toInt heq
    rw [hoid tab_name tms htms, hoid tab_name' tms' htms'] at hnumbers
    exact h.inj tab_name (UnorderedMap.mem_keys_of_find? htms) tab_name' (UnorderedMap.mem_keys_of_find? htms')
      (by exact_mod_cast hnumbers)

end Counted

/-! ## Runs -/

/-- The tables of every database are numbered. -/
def AllCounted (m : MetaServer) : Prop := ∀ db_name, ∃ number, Counted (m.database db_name) number

section Runs

variable {m m' : MetaServer} {w w' : Server} {acts : List Act}

theorem allCounted_init : ({} : MetaServer).AllCounted := fun db_name => ⟨fun _ => 0, counted_empty db_name⟩

theorem AllCounted.respond {e : Event} {res : Option Response} (h : m.AllCounted) (hreq : m.respond e = some (m', res)) :
    m'.AllCounted := by
  intro db_name
  obtain ⟨number, hcounted⟩ := h db_name
  have hspec := respond_spec hreq
  cases res with
  | none => exact ⟨number, hspec db_name ▸ hcounted⟩
  | some res =>
      by_cases hdb : db_name = res.db_name
      · rw [hdb] at hcounted ⊢
        exact ⟨_, hcounted.extended hspec.extended⟩
      · rw [hspec.others db_name hdb]
        exact ⟨number, hcounted⟩

theorem Same.database (h : m.Same m') (db_name : Bytes) : (m.database db_name).Same (m'.database db_name) := by
  have hrel := h.db_map_ db_name
  rw [MetaServer.database, MetaServer.database]
  generalize m.db_map_.find? db_name = db?, m'.db_map_.find? db_name = db?' at hrel ⊢
  cases hrel with
  | none => exact ⟨rfl, rfl, fun _ => rfl⟩
  | some hsame => exact hsame

theorem Same.find?_some {db_name : Bytes} {db : DbMetaServer} (h : m.Same m') (hdb : m.db_map_.find? db_name = some db) :
    ∃ db', m'.db_map_.find? db_name = some db' ∧ db.Same db' := by
  have hrel := h.db_map_ db_name
  rw [hdb] at hrel
  generalize m'.db_map_.find? db_name = db?' at hrel ⊢
  cases hrel with
  | some hsame => exact ⟨_, rfl, hsame⟩

theorem AllCounted.same (h : m.AllCounted) (hsame : m.Same m') : m'.AllCounted := by
  intro db_name
  obtain ⟨number, hcounted⟩ := h db_name
  exact ⟨number, hcounted.same (hsame.database db_name)⟩

/-- **One request, save or reload** keeps the tables numbered, those in the file too. -/
theorem counted_serve {act : Act} (h : w.meta_server_.AllCounted ∧ ∀ m, w.saved = some m → m.AllCounted)
    (hstep : Serve w act w') : w'.meta_server_.AllCounted ∧ ∀ m, w'.saved = some m → m.AllCounted := by
  obtain ⟨hm, hsaved⟩ := h
  cases hstep with
  | request hreq => exact ⟨hm.respond hreq, hsaved⟩
  | close_meta_server =>
      refine ⟨hm, fun m hsave => ?_⟩
      obtain rfl := Option.some.inj hsave
      exact hm
  | open_meta_server _ hsame => exact ⟨(hsaved _ rfl).same hsame, hsaved⟩

theorem counted_run (h : Run Serve {} acts w) : w.meta_server_.AllCounted :=
  (h.invariant (fun _ _ _ hI hstep => counted_serve hI hstep) ⟨allCounted_init, fun _ hnone => absurd hnone nofun⟩).1

theorem uniqueOids_run {db_name : Bytes} {db : DbMetaServer} (h : Run Serve {} acts w)
    (hdb : w.meta_server_.db_map_.find? db_name = some db) (hsize : db.tabs_.size < 2 ^ 31) : db.UniqueOids := by
  obtain ⟨number, hcounted⟩ := counted_run h db_name
  rw [database_eq hdb] at hcounted
  exact hcounted.uniqueOids hsize

/-- **Table ids and names stay unique**, up to `2 ^ 31 - 1` tables in a database. A response has the id of the table that it
    is for, and no other table changes, however many there are. -/
theorem tables_unique (h : Run Serve {} acts w) :
    (∀ db_name db, w.meta_server_.db_map_.find? db_name = some db → db.tabs_.size < 2 ^ 31 → db.UniqueOids) ∧
      ∀ e res w', Serve w (.request e (some res)) w' → w.meta_server_.Adds res w'.meta_server_ := by
  refine ⟨fun db_name db hdb hsize => uniqueOids_run h hdb hsize, ?_⟩
  intro e res w' hstep
  have hafter := h.tail hstep
  cases hstep with
  | request hreq => exact (respond_spec hreq).adds fun db hdb hsize => uniqueOids_run hafter hdb hsize

/-- Requests without saves. -/
theorem serve_of_run {es : List Event} (h : Run (FunStep handle) {} es m) : ∃ acts, Run Serve {} acts ⟨m, none⟩ := by
  induction h with
  | refl => exact ⟨[], Run.refl⟩
  | tail _ hst ih =>
      obtain ⟨acts, hrun⟩ := ih
      rw [FunStep, handle_eq_respond] at hst
      obtain ⟨⟨m₁, res⟩, hreq, rfl⟩ := Option.map_eq_some_iff.mp hst
      exact ⟨_, hrun.tail (.request hreq)⟩

/-- A partitioned table that is saved and read again. -/
theorem tables_unique_reopened : ∃ acts m saved db, Run Serve {} acts ⟨m, some saved⟩ ∧
    m.db_map_.find? [100] = some db ∧ db.tabs_.size = 1 ∧ db.UniqueOids := by
  obtain ⟨m, hrun, hreadable, hsize⟩ := exists_partitioned
  obtain ⟨acts, hserve⟩ := serve_of_run hrun
  obtain ⟨m', is, hread, -, hsame⟩ := (roundTrips_iff_readable (ok_of_run partitioned_valid hrun)).mpr hreadable
  have hreopened := (hserve.tail .close_meta_server).tail (.open_meta_server hread hsame)
  obtain ⟨db, hdb, hone⟩ := Option.map_eq_some_iff.mp hsize
  obtain ⟨db', hdb', hsameDb⟩ := hsame.find?_some hdb
  have hone' : db'.tabs_.size = 1 := (UnorderedMap.size_congr hsameDb.tabs_).symm.trans hone
  exact ⟨_, m', m, db', hreopened, hdb', hone', (tables_unique hreopened).1 [100] db' hdb' (by rw [hone']; decide)⟩

/-- A table without columns, with a new name, in a map that is not full. -/
theorem respond_exists {db : DbMetaServer} {db_name tab_name : Bytes} (hdb : m.db_map_.find? db_name = some db)
    (hnew : tab_name ∉ db.tabs_.keys) (hsize : db.tabs_.size + 1 < 2 ^ 64) : ∃ m' db',
      m.respond (.CreateTable .front (0, 0) ⟨db_name, tab_name, [], []⟩) =
        some (m', some ⟨db_name, tab_name, db.next_oid_⟩) ∧
      m'.db_map_.find? db_name = some db' := by
  obtain ⟨m', hadd⟩ := @addTable_exists .front m db { newTable (0, 0) with oid := db.next_oid_, name := tab_name } db_name
    hnew hsize
  have hcreate : m.CreateTable .front (0, 0) ⟨db_name, tab_name, [], []⟩ = some (m', some db.next_oid_) := by
    rw [CreateTable, hdb]
    dsimp only
    rw [if_neg hnew]
    exact Option.bind_eq_some_iff.mpr ⟨⟨[], []⟩, rfl, Option.bind_eq_some_iff.mpr ⟨m', hadd, rfl⟩⟩
  obtain ⟨db', hdb', -⟩ := Option.bind_eq_some_iff.mp (addTable_table? hdb hadd)
  exact ⟨m', db', by rw [respond, hcreate]; rfl, hdb'⟩

/-- Any number of tables, each with a longer name. -/
theorem run_tables (n : Nat) (hn : n < 2 ^ 64) : ∃ acts w db, Run Serve {} acts w ∧
    w.meta_server_.db_map_.find? [100] = some db ∧ db.tabs_.size = n ∧ ∀ tab_name ∈ db.tabs_.keys, tab_name.length ≤ n := by
  induction n with
  | zero =>
      obtain ⟨m, hreq, hdb⟩ : ∃ m : MetaServer, ({} : MetaServer).respond (.CreateDataBase .front [100]) = some (m, none) ∧
          m.db_map_.find? [100] = some ⟨0, [100], .empty⟩ := ⟨_, rfl, rfl⟩
      exact ⟨_, ⟨m, none⟩, _, Run.single (.request hreq), hdb, rfl, fun _ hkey => absurd hkey List.not_mem_nil⟩
  | succ n ih =>
      obtain ⟨acts, ⟨m, saved⟩, db, hrun, hdb, hsize, hnames⟩ := ih (by omega)
      have hnew : List.replicate (n + 1) 97 ∉ db.tabs_.keys := by
        intro hkey
        have hlen := hnames _ hkey
        rw [List.length_replicate] at hlen
        omega
      obtain ⟨m', db', hreq, hdb'⟩ := respond_exists hdb hnew (by omega)
      have hext := (respond_spec hreq).extended
      dsimp only at hext
      rw [database_eq hdb, database_eq hdb'] at hext
      obtain ⟨order, tms, hassign, -⟩ := hext.tabs_
      refine ⟨_, ⟨m', saved⟩, db', hrun.tail (.request hreq), hdb', ?_, ?_⟩
      · rw [UnorderedMap.size_assign_of_not_mem hnew hassign, hsize]
      · intro tab_name hkey
        rcases (UnorderedMap.mem_keys_assign hassign).mp hkey with rfl | ⟨-, hold⟩
        · exact le_of_eq List.length_replicate
        · exact Nat.le_succ_of_le (hnames _ hold)

/-- **Ids run out**: with `2 ^ 31` tables, `next_oid_` is negative. -/
theorem next_oid_wraps : ¬ ∀ (acts : List Act) (w : Server), Run Serve {} acts w → ∀ db_name db,
    w.meta_server_.db_map_.find? db_name = some db → db.UniqueOids := by
  intro hall
  obtain ⟨acts, w, db, hrun, hdb, hsize, -⟩ := run_tables (2 ^ 31) (by decide)
  obtain ⟨number, hcounted⟩ := counted_run hrun [100]
  rw [database_eq hdb] at hcounted
  -- some table
  obtain ⟨⟨tab_name, tms⟩, hmem⟩ := List.exists_mem_of_length_pos (l := db.tabs_.entries) (by
    show 0 < db.tabs_.size
    rw [hsize]
    decide)
  have hlt := (hall acts w hrun [100] db hdb).oid_lt tab_name tms (UnorderedMap.find?_eq_some_iff.mpr hmem)
  rw [hcounted.next_oid_, hsize, Int32.lt_iff_toInt_lt] at hlt
  have hleast := tms.oid.le_toInt
  rw [show (Int32.ofNat (2 ^ 31)).toInt = -2 ^ 31 by decide] at hlt
  exact absurd hlt (not_lt.mpr hleast)

end Runs

end MetaServer
end DDBMS
