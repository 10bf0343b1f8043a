import DDBMS.Lib.Run
import DDBMS.MetaServer.CatalogLookup

/-!
# `MetaServer.FailedLookup` — what is left of a failed lookup

A lookup of a name that is not there puts a null pointer in under this name. Nothing that comes later is the same then: the
name counts as taken, and where the pointer is dereferenced, as it is when the catalog is saved, the behaviour is undefined
(`save_undefined`). Only when there is an entry for the name already, from a failed lookup before, nothing changes
(`lookup_unnoticed_iff`).
-/

namespace DDBMS
namespace MetaServer
namespace Catalog

inductive Lookup where
  | getPartitionKey
  | GetColInfor
  | getReplicaLocationList (partitionKeyName min_range max_range : Bytes)
  | UpdatePartitionLeader (p_id : partition_id_t) (ip_addr : Bytes)

/-- Whatever comes later. -/
inductive Later where
  | CreateDataBase (order : Order Bytes (Option DbCatalog)) (db_name : Bytes)
  | CreateTable (order : Order Bytes (Option TabMetaServer)) (location : table_oid_t × DuplicateType)
      (request : CreateTableRequest)
  | CreatePartitionTable (order : Order Bytes (Option TabMetaServer)) (request : CreatePartitonTableRequest)
  | NodeRegister (order : Order Bytes Node) (ip : Bytes) (request : RegisterRequest)
  | save
  | lookup (orders : Orders) (db_name table_name : Bytes) (l : Lookup)

/-- What the caller gets, or what is written to the file. -/
inductive Response where
  | success (success : Bool)
  | oid (oid : Option table_oid_t)
  | register_ok
  | text (ps : List Put)
  | partition_key_name (res : Except Thrown Bytes)
  | col_info (res : Except Thrown Column_info)
  | locations (res : Except Thrown Locations)
  | updated (res : Except Thrown Bool)

/-- What was thrown. -/
def Response.thrown : Response → Option Thrown
  | .partition_key_name (.error e) | .col_info (.error e) | .locations (.error e) | .updated (.error e) => some e
  | _ => none

/-- The lookup has found no database or no table. -/
def Response.Failed (r : Response) : Prop :=
  r.thrown = some (.MetaServerErrorException .NO_DATABASE) ∨ r.thrown = some (.MetaServerErrorException .NO_TABLE)

def call (hash : Hash) (orders : Orders) (c : Catalog) (db_name table_name : Bytes) : Lookup → Option (Catalog × Response)
  | .getPartitionKey => (c.getPartitionKey orders db_name table_name).map fun res => (res.1, .partition_key_name res.2)
  | .GetColInfor => (c.GetColInfor orders db_name table_name).map fun res => (res.1, .col_info res.2)
  | .getReplicaLocationList partitionKeyName min_range max_range =>
    (c.getReplicaLocationList orders hash db_name table_name partitionKeyName min_range max_range).map
      fun res => (res.1, .locations res.2)
  | .UpdatePartitionLeader p_id ip_addr =>
    (c.UpdatePartitionLeader orders db_name table_name p_id ip_addr).map fun res => (res.1, .updated res.2)

def step (hash : Hash) (c : Catalog) : Later → Option (Catalog × Response)
  | .CreateDataBase order db_name => (c.CreateDataBase order db_name).map fun res => (res.1, .success res.2)
  | .CreateTable order location request => (c.CreateTable order location request).map fun res => (res.1, .oid res.2)
  | .CreatePartitionTable order request => (c.CreatePartitionTable order request).map fun res => (res.1, .oid res.2)
  | .NodeRegister order ip request => (c.NodeRegister order ip request).map fun c => (c, .register_ok)
  | .save => c.out.map fun ps => (c, .text ps)
  | .lookup orders db_name table_name l => c.call hash orders db_name table_name l

/-- The responses, up to undefined behaviour. -/
def responses (hash : Hash) : Catalog → List Later → List (Option Response)
  | _, [] => []
  | c, e :: es =>
    match c.step hash e with
    | none => [none]
    | some (c, r) => some r :: responses hash c es

/-- There is an entry for this table. -/
def HasTable (c : Catalog) (db_name table_name : Bytes) : Prop :=
  ∃ dms, c.db_map_.find? db_name = some (some dms) ∧ table_name ∈ dms.tabs_.keys

/-- The same databases and tables, and the same responses to whatever comes later. -/
structure Unnoticed (hash : Hash) (c c' : Catalog) : Prop where
  databases : ∀ db_name, db_name ∈ c'.db_map_.keys ↔ db_name ∈ c.db_map_.keys
  tables : ∀ db_name table_name, c'.HasTable db_name table_name ↔ c.HasTable db_name table_name
  later : ∀ es, c'.responses hash es = c.responses hash es

/-- There are entries for the names, with a pointer or a null pointer. -/
def HasEntries (c : Catalog) (db_name table_name : Bytes) : Prop :=
  db_name ∈ c.db_map_.keys ∧ ∀ dms, c.db_map_.find? db_name = some (some dms) → table_name ∈ dms.tabs_.keys

variable {hash : Hash} {orders : Orders} {c c' : Catalog} {db_name table_name : Bytes} {l : Lookup} {r : Response}
variable {res : Except MetaServerError TabMetaServer}

theorem unnoticed_refl (hash : Hash) (c : Catalog) : Unnoticed hash c c := ⟨fun _ => Iff.rfl, fun _ _ => Iff.rfl, fun _ => rfl⟩

/-- Each lookup does what its first part does. -/
theorem call_cases (h : c.call hash orders db_name table_name l = some (c', r)) :
    ∃ res, FindTable orders c db_name table_name c' res := by
  have hfind : ∀ {α : Type} {answer : TabMetaServer → Option (Except Thrown α)} {f : Except Thrown α → Response},
      (c.lookup orders db_name table_name answer).map (fun res => (res.1, f res.2)) = some (c', r) →
      ∃ res, FindTable orders c db_name table_name c' res := by
    intro α answer f h
    obtain ⟨⟨c₁, res⟩, hlookup, heq⟩ := Option.map_eq_some_iff.mp h
    obtain ⟨rfl, -⟩ := Prod.mk.inj heq
    rcases lookup_cases hlookup with ⟨tms, hfound, -⟩ | ⟨err, hfound, -⟩
    · exact ⟨_, hfound⟩
    · exact ⟨_, hfound⟩
  cases l with
  | getPartitionKey => exact hfind h
  | GetColInfor => exact hfind h
  | getReplicaLocationList partitionKeyName min_range max_range => exact hfind h
  | UpdatePartitionLeader p_id ip_addr => exact hfind h

/-- Entries that are there stay as they are. -/
theorem FindTable.unchanged (h : FindTable orders c db_name table_name c' res) (hentries : c.HasEntries db_name table_name) :
    c' = c := by
  cases h with
  | found hdb htms => rfl
  | nullDb hdb => rfl
  | newDb hdb hassign => exact absurd hentries.1 hdb
  | nullTable hdb htms => rfl
  | newTable hdb htms hassign => exact absurd (hentries.2 _ hdb) htms

/-- Afterwards there are entries for the names. -/
theorem FindTable.hasEntries (h : FindTable orders c db_name table_name c' res) :
    db_name ∈ c'.db_map_.keys ∧ ∀ dms, c.db_map_.find? db_name = some (some dms) → c'.HasTable db_name table_name := by
  cases h with
  | @found dms tms hdb htms =>
      exact ⟨UnorderedMap.mem_keys_of_find? hdb, fun _ _ => ⟨dms, hdb, UnorderedMap.mem_keys_of_find? htms⟩⟩
  | nullDb hdb =>
      refine ⟨UnorderedMap.mem_keys_of_find? hdb, fun dms hdms => ?_⟩
      rw [hdb] at hdms
      cases hdms
  | newDb hdb hassign =>
      refine ⟨UnorderedMap.mem_keys_of_find? (UnorderedMap.find?_assign_self hassign), fun dms hdms => ?_⟩
      exact absurd (UnorderedMap.mem_keys_of_find? hdms) hdb
  | @nullTable dms hdb htms =>
      exact ⟨UnorderedMap.mem_keys_of_find? hdb, fun _ _ => ⟨dms, hdb, UnorderedMap.mem_keys_of_find? htms⟩⟩
  | @newTable dms tabs_ hdb htms hassign =>
      have hfind := UnorderedMap.find?_modify_self (m := c.db_map_) (k := db_name) fun _ => some { dms with tabs_ := tabs_ }
      rw [hdb, Option.map_some] at hfind
      exact ⟨UnorderedMap.mem_keys_of_find? hfind,
        fun _ _ => ⟨_, hfind, UnorderedMap.mem_keys_of_find? (UnorderedMap.find?_assign_self hassign)⟩⟩

theorem mapM_none {α β : Type} {f : α → Option β} {l : List α} {x : α} (hx : x ∈ l) (h : f x = none) : l.mapM f = none := by
  induction l with
  | nil => cases hx
  | cons y l ih =>
      rw [List.mapM_cons]
      rcases List.mem_cons.mp hx with rfl | hx
      · rw [h]
        rfl
      · rw [ih hx]
        cases f y <;> rfl

/-- **A catalog cannot be saved** any more after a failed lookup. -/
theorem save_undefined (h : FindTable orders c db_name table_name c' res) (hfailed : ∀ tms, res ≠ .ok tms) : c'.out = none := by
  have hdb : ∀ v, c'.db_map_.find? db_name = some v → v.bind DbCatalog.out = none → c'.out = none := by
    intro v hv hnone
    rw [out, mapM_none (UnorderedMap.find?_eq_some_iff.mp hv) hnone]
    rfl
  have htable : ∀ dms : DbCatalog, dms.tabs_.find? table_name = some none → dms.out = none := by
    intro dms hnone
    rw [DbCatalog.out, mapM_none (UnorderedMap.find?_eq_some_iff.mp hnone) rfl]
    rfl
  cases h with
  | found hdb htms => exact absurd rfl (hfailed _)
  | nullDb hnull => exact hdb none hnull rfl
  | newDb hnew hassign => exact hdb none (UnorderedMap.find?_assign_self hassign) rfl
  | @nullTable dms hdms htms => exact hdb (some dms) hdms (htable dms htms)
  | @newTable dms tabs_ hdms htms hassign =>
      have hfind := UnorderedMap.find?_modify_self (m := c.db_map_) (k := db_name) fun _ => some { dms with tabs_ := tabs_ }
      rw [hdms, Option.map_some] at hfind
      exact hdb _ hfind (htable _ (UnorderedMap.find?_assign_self hassign))

/-- **A lookup goes unnoticed** if and only if there were entries for its names before. -/
theorem lookup_unnoticed_iff (h : c.call hash orders db_name table_name l = some (c', r)) :
    Unnoticed hash c c' ↔ c.HasEntries db_name table_name := by
  obtain ⟨res, hfind⟩ := call_cases h
  constructor
  · intro hsame
    obtain ⟨hdb, htable⟩ := hfind.hasEntries
    refine ⟨(hsame.databases db_name).mp hdb, fun dms hdms => ?_⟩
    obtain ⟨dms', hdms', hin⟩ := (hsame.tables db_name table_name).mp (htable dms hdms)
    obtain rfl := Option.some.inj (Option.some.inj (hdms.symm.trans hdms'))
    exact hin
  · intro hentries
    rw [hfind.unchanged hentries]
    exact unnoticed_refl hash c

/-- A database whose table has been looked for before. -/
def lookedFor : Catalog :=
  ⟨⟨[([100], some ⟨0, [100], ⟨[([116], none)], by decide, by decide⟩⟩)], by decide, by decide⟩, .empty⟩

theorem lookup_unnoticed_iff_lookedFor : ∃ r,
    lookedFor.call ⟨fun _ => 0, fun _ => 0⟩ ⟨.front, .front⟩ [100] [116] .GetColInfor = some (lookedFor, r) ∧
      Unnoticed ⟨fun _ => 0, fun _ => 0⟩ lookedFor lookedFor := by
  have hcall : lookedFor.call ⟨fun _ => 0, fun _ => 0⟩ ⟨.front, .front⟩ [100] [116] .GetColInfor =
      some (lookedFor, .col_info (.error (.MetaServerErrorException .NO_TABLE))) := rfl
  refine ⟨_, hcall, (lookup_unnoticed_iff hcall).mpr ⟨by decide, fun dms hdms => ?_⟩⟩
  obtain rfl := Option.some.inj (Option.some.inj hdms)
  decide

/-- The catalog cannot be saved any more when a table was not found. -/
theorem cannot_be_saved : ¬ ∀ (hash : Hash) (orders : Orders) (es : List Event) (m : MetaServer) (c' : Catalog)
    (db_name table_name : Bytes) (l : Lookup) (r : Response), Run (FunStep handle) {} es m →
      (embed m).call hash orders db_name table_name l = some (c', r) → r.Failed → Unnoticed hash (embed m) c' := by
  intro hall
  let lookup (m : MetaServer) : Option (Catalog × Response) :=
    (embed m).call ⟨fun _ => 0, fun _ => 0⟩ ⟨.front, .front⟩ [100] [116] .GetColInfor
  obtain ⟨m, hrun, hres⟩ : ∃ m, Run (FunStep handle) {} [.CreateDataBase .front [100]] m ∧
      (lookup m).map (fun res => (res.1.out.isNone, res.2.thrown)) =
        some (true, some (.MetaServerErrorException .NO_TABLE)) :=
    Run.exists_of_map (f := fun m => (lookup m).map fun res => (res.1.out.isNone, res.2.thrown)) (by decide)
  obtain ⟨⟨c', r⟩, hcall, heq⟩ := Option.map_eq_some_iff.mp hres
  obtain ⟨hout, hthrown⟩ := Prod.mk.inj heq
  have hlater := (hall _ _ _ m c' _ _ _ r hrun hcall (Or.inr hthrown)).later [.save]
  rw [responses, responses, step, step, out_embed, Option.isNone_iff_eq_none.mp hout] at hlater
  cases hlater

end Catalog
end MetaServer
end DDBMS
