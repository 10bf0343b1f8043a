import DDBMS.MetaServer.Catalog

/-!
# `MetaServer.CatalogRead` — reading the catalog back

`MetaServer.roundTrips_iff`: a well-formed catalog is read back as it was written if and only if it is `Readable`. The
format has no quotes, so an empty string is not there for the reader (the partition key name of every table that
`CreateTable` has made, a range bound that was left empty), and the number of columns has nothing behind it, so a column
name that begins with a digit continues it.

From right to left, one lemma per `>>`, from the leaves up. From left to right, the fields that were read tell what was
written (`Lexes.separated`).
-/

namespace DDBMS

/-! ## Well-formed catalogs -/

structure PhyPartitionLocation.Ok (loc : PhyPartitionLocation) : Prop where
  size : loc.repliaca_location_.length < 2 ^ 64
  ip : ∀ r ∈ loc.repliaca_location_, Word r.ip_addr_

structure ParMeta.Ok (pm : ParMeta) : Prop where
  name : Word pm.name
  digit : NoDigit pm.name
  min_range : NoSpace pm.min_range
  max_range : NoSpace pm.max_range

structure Column_info.Ok (cols : Column_info) : Prop where
  lengths : cols.column_name.length = cols.column_type.length
  size : cols.column_name.length < 2 ^ 31
  names : ∀ name ∈ cols.column_name, Word name

structure TabMetaServer.Ok (tab : TabMetaServer) : Prop where
  name : Word tab.name
  key_name : NoSpace tab.partition_key_name
  col_info : tab.col_info.Ok
  size : tab.partitions.length < 2 ^ 64
  partitions : ∀ pm ∈ tab.partitions, pm.Ok
  locations : tab.table_location_.partiton_list_.length < 2 ^ 64
  location : ∀ loc ∈ tab.table_location_.partiton_list_, loc.Ok
  /-- `CreateTable` leaves the duplicate type as it is in memory -/
  duplicate_type : tab.partition_key_name ≠ [] →
    tab.table_location_.duplicate_type_.toInt32.toInt64 = tab.table_location_.duplicate_type_

structure DbMetaServer.Ok (db : DbMetaServer) : Prop where
  name : Word db.name_
  tabs : ∀ e ∈ db.tabs_.entries, e.2.name = e.1 ∧ e.2.Ok

structure MetaServer.Ok (m : MetaServer) : Prop where
  dbs : ∀ e ∈ m.db_map_.entries, e.2.name_ = e.1 ∧ e.2.Ok
  nodes : ∀ e ∈ m.ip_node_map_.entries, Word e.1 ∧ Word e.2.ip_addr

/-- The table has a partition key, no partition has an empty bound, and no digit follows the number of columns: neither
    as the first column's name, nor, if there are no columns and no partitions, as the table id. -/
structure TabMetaServer.Readable (tab : TabMetaServer) : Prop where
  key_name : tab.partition_key_name ≠ []
  bounds : ∀ pm ∈ tab.partitions, pm.min_range ≠ [] ∧ pm.max_range ≠ []
  column : ∀ name ∈ tab.col_info.column_name.head?, NoDigit name
  row : tab.col_info.column_name = [] → tab.partitions = [] → tab.table_location_.table_oid_.toInt < 0

/-- Every table can be read back. -/
def MetaServer.Readable (m : MetaServer) : Prop :=
  ∀ d ∈ m.db_map_.entries, ∀ t ∈ d.2.tabs_.entries, t.2.Readable

/-! ## Each `>>` reads what `<<` wrote -/

theorem ParMeta.reads {pm : ParMeta} (h : pm.Ok) (hmin : pm.min_range ≠ []) (hmax : pm.max_range ≠ []) :
    Reads Anything readParMeta pm.out pm := by
  show Reads Anything readParMeta ([.field pm.name, sp] ++ ([num pm.p_id.toInt, sp] ++
    ([.field pm.min_range, sp] ++ ([.field pm.max_range, nl] ++ [])))) pm
  refine (h.name.reads (Q := Anything) rfl).bind ?_ (fun _ _ => trivial)
  refine (reads_int32 (Q := Anything) pm.p_id rfl).bind ?_ (fun _ _ => trivial)
  refine ((Word.mk hmin h.min_range).reads (Q := Anything) rfl).bind ?_ (fun _ _ => trivial)
  refine ((Word.mk hmax h.max_range).reads (Q := Anything) rfl).bind ?_ (fun _ _ => trivial)
  exact Reads.pure pm

theorem Column_info.reads_column {c : Bytes × ColType} (h : Word c.1) : Reads Anything readColumn (outColumn c) c := by
  show Reads Anything readColumn ([.field c.1, sp] ++ ([num c.2.toInt, nl] ++ [])) c
  refine (h.reads (Q := Anything) rfl).bind ?_ (fun _ _ => trivial)
  refine (reads_int32 (Q := Anything) c.2 rfl).bind ?_ (fun _ _ => trivial)
  exact Reads.pure c

/-- The columns, with no digit behind their number. -/
theorem Column_info.reads {cols : Column_info} (h : cols.Ok) (hcolumn : ∀ name ∈ cols.column_name.head?, NoDigit name) :
    Reads (fun text => cols.column_name = [] → NoDigit text) readColumn_info cols.out cols := by
  have hsize : ((Int32.ofNat cols.column_name.length).toInt.toNat) = cols.column_name.length := by
    rw [Int32.toInt_ofNat_of_lt h.size, Int.toNat_natCast]
  have hnum : num cols.column_name.length = num (Int32.ofNat cols.column_name.length).toInt := by
    rw [Int32.toInt_ofNat_of_lt h.size]
  have hlength : (cols.column_name.zip cols.column_type).length = cols.column_name.length := by
    rw [List.length_zip, ← h.lengths, Nat.min_self]
  have hcols : Reads Anything (readN cols.column_name.length readColumn)
      ((cols.column_name.zip cols.column_type).flatMap outColumn) (cols.column_name.zip cols.column_type) := by
    rw [← hlength]
    apply Reads.readN
    rw [List.forall₂_same]
    intro c hc
    exact reads_column (h.names c.1 (List.of_mem_zip hc).1)
  show Reads _ readColumn_info ([num cols.column_name.length] ++ ((cols.column_name.zip cols.column_type).flatMap outColumn))
    cols
  rw [hnum]
  refine (reads_getInt32 _).bind ?_ ?_
  · have hall : Reads (fun text => cols.column_name = [] → NoDigit text)
        (readN (Int32.ofNat cols.column_name.length).toInt.toNat readColumn >>=
          fun cols => pure (⟨cols.map Prod.fst, cols.map Prod.snd⟩ : Column_info))
        ((cols.column_name.zip cols.column_type).flatMap outColumn ++ []) cols := by
      rw [hsize]
      refine hcols.bind ?_ (fun _ _ => trivial)
      rw [List.map_fst_zip (le_of_eq h.lengths), List.map_snd_zip (le_of_eq h.lengths.symm)]
      exact Reads.pure cols
    rw [List.append_nil] at hall
    exact hall
  · -- what stands behind the number of columns
    intro text htext
    obtain ⟨column_name, column_type⟩ := cols
    cases column_name with
    | nil => exact htext rfl
    | cons name column_name =>
        cases column_type with
        | nil => exact absurd h.lengths (by simp)
        | cons type column_type =>
            obtain ⟨c, w, rfl⟩ := List.exists_cons_of_ne_nil (h.names name List.mem_cons_self).ne
            intro d hd
            exact hcolumn _ rfl d hd

theorem ReplicaLocation.reads {r : ReplicaLocation} (h : Word r.ip_addr_) : Reads Anything readReplicaLocation r.out r := by
  show Reads Anything readReplicaLocation ([.field r.ip_addr_, sp] ++ ([num r.port_.toInt, sp] ++
    ([num r.role_.toInt, nl] ++ []))) r
  refine (h.reads (Q := Anything) rfl).bind ?_ (fun _ _ => trivial)
  refine (reads_int32 (Q := Anything) r.port_ rfl).bind ?_ (fun _ _ => trivial)
  refine (reads_int32 (Q := Anything) r.role_ rfl).bind ?_ (fun _ _ => trivial)
  exact Reads.pure r

theorem PhyPartitionLocation.reads {loc : PhyPartitionLocation} (h : loc.Ok) :
    Reads Anything readPhyPartitionLocation loc.out loc := by
  have hreplicas : Reads Anything (readN loc.repliaca_location_.length readReplicaLocation)
      (loc.repliaca_location_.flatMap ReplicaLocation.out) loc.repliaca_location_ := by
    apply Reads.readN
    rw [List.forall₂_same]
    exact fun r hr => ReplicaLocation.reads (h.ip r hr)
  rw [← List.append_nil loc.out, PhyPartitionLocation.out, List.append_assoc]
  show Reads Anything readPhyPartitionLocation ([num loc.table_oid_.toInt, sp] ++ ([num loc.p_id_.toInt, sp] ++
    ([num loc.replica_cnt_.toInt, sp] ++ ([num loc.repliaca_location_.length, nl] ++
      (loc.repliaca_location_.flatMap ReplicaLocation.out ++ []))))) loc
  refine (reads_int32 (Q := Anything) loc.table_oid_ rfl).bind ?_ (fun _ _ => trivial)
  refine (reads_int32 (Q := Anything) loc.p_id_ rfl).bind ?_ (fun _ _ => trivial)
  refine (reads_int32 (Q := Anything) loc.replica_cnt_ rfl).bind ?_ (fun _ _ => trivial)
  refine (reads_size (Q := Anything) h.size rfl).bind ?_ (fun _ _ => trivial)
  refine hreplicas.bind ?_ (fun _ _ => trivial)
  exact Reads.pure loc

/-- The locations, unless the duplicate type was never set. -/
theorem PhyTableLocation.reads {loc : PhyTableLocation} (hsize : loc.partiton_list_.length < 2 ^ 64)
    (h : ∀ l ∈ loc.partiton_list_, l.Ok) (hdup : loc.duplicate_type_.toInt32.toInt64 = loc.duplicate_type_) :
    Reads Anything readPhyTableLocation loc.out loc := by
  have hlist : Reads Anything (readN loc.partiton_list_.length readPhyPartitionLocation)
      (loc.partiton_list_.flatMap PhyPartitionLocation.out) loc.partiton_list_ := by
    apply Reads.readN
    rw [List.forall₂_same]
    exact fun l hl => PhyPartitionLocation.reads (h l hl)
  rw [← List.append_nil loc.out, PhyTableLocation.out, List.append_assoc]
  show Reads Anything readPhyTableLocation ([num loc.table_oid_.toInt, sp] ++
    ([num loc.duplicate_type_.toInt32.toInt, sp] ++ ([num loc.partiton_list_.length, nl] ++
      (loc.partiton_list_.flatMap PhyPartitionLocation.out ++ [])))) loc
  refine (reads_int32 (Q := Anything) loc.table_oid_ rfl).bind ?_ (fun _ _ => trivial)
  refine (reads_int32 (Q := Anything) loc.duplicate_type_.toInt32 rfl).bind ?_ (fun _ _ => trivial)
  refine (reads_size (Q := Anything) hsize rfl).bind ?_ (fun _ _ => trivial)
  refine hlist.bind ?_ (fun _ _ => trivial)
  rw [hdup]
  exact Reads.pure loc

/-- What stands behind the number of columns, if there are none. -/
theorem TabMetaServer.Readable.noDigit {tab : TabMetaServer} (h : tab.Readable) (hok : tab.Ok)
    (hcols : tab.col_info.column_name = []) (text : Bytes) :
    NoDigit (textOf (tab.partitions.flatMap ParMeta.out ++ tab.table_location_.out) ++ text) := by
  cases hparts : tab.partitions with
  | nil =>
      -- the table id, which has a minus sign
      have hneg := h.row hcols hparts
      intro c hc
      rw [List.flatMap_nil, List.nil_append, PhyTableLocation.out, List.cons_append, num, textOf, decimal, if_pos hneg] at hc
      obtain rfl := Option.some.inj hc
      rfl
  | cons pm pms =>
      have hpm := hok.partitions pm (by rw [hparts]; exact List.mem_cons_self)
      obtain ⟨c, w, hname⟩ := List.exists_cons_of_ne_nil hpm.name.ne
      intro d hd
      rw [List.flatMap_cons, ParMeta.out, List.cons_append, List.cons_append, textOf, hname] at hd
      obtain rfl := Option.some.inj hd
      exact hpm.digit c (by rw [hname]; rfl)

theorem TabMetaServer.reads {tab : TabMetaServer} (hok : tab.Ok) (h : tab.Readable) :
    Reads Anything readTabMetaServer tab.out tab := by
  have hparts : Reads Anything (readN tab.partitions.length readParMeta) (tab.partitions.flatMap ParMeta.out)
      tab.partitions := by
    apply Reads.readN
    rw [List.forall₂_same]
    intro pm hpm
    obtain ⟨hmin, hmax⟩ := h.bounds pm hpm
    exact ParMeta.reads (hok.partitions pm hpm) hmin hmax
  have hloc := PhyTableLocation.reads hok.locations hok.location (hok.duplicate_type h.key_name)
  rw [← List.append_nil tab.out, TabMetaServer.out, List.append_assoc, List.append_assoc, List.append_assoc]
  show Reads Anything readTabMetaServer ([num tab.oid.toInt, sp] ++ ([.field tab.name, sp] ++
    ([num tab.partition_type.toInt, sp] ++ ([.field tab.partition_key_name, sp] ++
    ([num tab.partition_key_type.toInt, sp] ++ ([num tab.partition_cnt_.toInt, sp] ++
    ([num tab.partitions.length, nl] ++ (tab.col_info.out ++ (tab.partitions.flatMap ParMeta.out ++
    (tab.table_location_.out ++ [])))))))))) tab
  refine (reads_int32 (Q := Anything) tab.oid rfl).bind ?_ (fun _ _ => trivial)
  refine (hok.name.reads (Q := Anything) rfl).bind ?_ (fun _ _ => trivial)
  refine (reads_int32 (Q := Anything) tab.partition_type rfl).bind ?_ (fun _ _ => trivial)
  refine ((Word.mk h.key_name hok.key_name).reads (Q := Anything) rfl).bind ?_ (fun _ _ => trivial)
  refine (reads_int32 (Q := Anything) tab.partition_key_type rfl).bind ?_ (fun _ _ => trivial)
  refine (reads_int32 (Q := Anything) tab.partition_cnt_ rfl).bind ?_ (fun _ _ => trivial)
  refine (reads_size (Q := Anything) hok.size rfl).bind ?_ (fun _ _ => trivial)
  refine (Column_info.reads hok.col_info h.column).bind ?_ ?_
  · refine hparts.bind ?_ (fun _ _ => trivial)
    refine hloc.bind ?_ (fun _ _ => trivial)
    exact Reads.pure tab
  · intro text _ hcols
    rw [List.append_nil]
    exact h.noDigit hok hcols text

/-- Something related to each element. -/
theorem exists_forall₂ {α β : Type} {R : α → β → Prop} {l : List α} (h : ∀ x ∈ l, ∃ y, R x y) :
    ∃ ys, List.Forall₂ R l ys := by
  induction l with
  | nil => exact ⟨[], .nil⟩
  | cons x l ih =>
      obtain ⟨y, hy⟩ := h x List.mem_cons_self
      obtain ⟨ys, hys⟩ := ih (fun z hz => h z (List.mem_cons_of_mem _ hz))
      exact ⟨y :: ys, .cons hy hys⟩

theorem DbMetaServer.reads {db : DbMetaServer} (hok : db.Ok) (h : ∀ t ∈ db.tabs_.entries, t.2.Readable) :
    ∃ db', Reads Anything readDbMetaServer db.out db' ∧ db.Same db' := by
  have htabs : Reads Anything (readN db.tabs_.size readTabMetaServer)
      (db.tabs_.entries.flatMap fun entry => entry.2.out ++ [nl]) (db.tabs_.entries.map Prod.snd) := by
    apply Reads.readN
    rw [List.forall₂_map_right_iff, List.forall₂_same]
    intro t ht
    exact (TabMetaServer.reads (hok.tabs t ht).2 (h t ht)).sep rfl (fun _ => trivial)
  -- the map is built from the names of the tables
  have hcopy : List.Forall₂ (fun e e' => e'.1 = e.1 ∧ e.2 = e'.2) db.tabs_.entries
      ((db.tabs_.entries.map Prod.snd).map fun tms => (tms.name, tms)) := by
    rw [List.map_map, List.forall₂_map_right_iff, List.forall₂_same]
    exact fun t ht => ⟨(hok.tabs t ht).1, rfl⟩
  obtain ⟨tabs_, hassign, hsame⟩ := @UnorderedMap.assignAll_copy _ _ _ _ _ _ .front _ hcopy
  refine ⟨⟨db.next_oid_, db.name_, tabs_⟩, ?_, rfl, rfl, ?_⟩
  · rw [← List.append_nil db.out, DbMetaServer.out, List.append_assoc]
    show Reads Anything readDbMetaServer ([num db.next_oid_.toInt, sp] ++ ([.field db.name_, sp] ++
      ([num db.tabs_.size, nl] ++ ((db.tabs_.entries.flatMap fun entry => entry.2.out ++ [nl]) ++ ([] ++ []))))) _
    refine (reads_int32 (Q := Anything) db.next_oid_ rfl).bind ?_ (fun _ _ => trivial)
    refine (hok.name.reads (Q := Anything) rfl).bind ?_ (fun _ _ => trivial)
    refine (reads_size (Q := Anything) db.tabs_.size_lt rfl).bind ?_ (fun _ _ => trivial)
    refine htabs.bind ?_ (fun _ _ => trivial)
    refine (Reads.ofOption (P := Anything) hassign).bind ?_ (fun _ _ => trivial)
    exact Reads.pure _
  · intro name
    have hrel := hsame name
    cases hfind : db.tabs_.find? name with
    | none =>
        rw [hfind] at hrel
        generalize tabs_.find? name = o at hrel ⊢
        cases hrel
        rfl
    | some t =>
        rw [hfind] at hrel
        generalize tabs_.find? name = o at hrel ⊢
        cases hrel with
        | some heq => rw [heq]

theorem readServer_reads {e : Bytes × MetaServer.Node} (hname : Word e.1) (hip : Word e.2.ip_addr) :
    Reads Anything readServer ([.field e.1, sp] ++ (e.2.out ++ [nl])) (e.1, { e.2 with activate := false }) := by
  have hnode : Reads Anything readNode (e.2.out ++ [nl]) { e.2 with activate := false } := by
    have hout : Reads Anything readNode e.2.out { e.2 with activate := false } := by
      show Reads Anything readNode ([.field e.2.ip_addr, sp] ++ ([num e.2.port.toInt, sp] ++
        ([num e.2.leader_par_cnt.toInt, sp] ++ ([num e.2.follower_par_cnt.toInt, nl] ++ [])))) _
      refine (hip.reads (Q := Anything) rfl).bind ?_ (fun _ _ => trivial)
      refine (reads_int32 (Q := Anything) e.2.port rfl).bind ?_ (fun _ _ => trivial)
      refine (reads_int32 (Q := Anything) e.2.leader_par_cnt rfl).bind ?_ (fun _ _ => trivial)
      refine (reads_int32 (Q := Anything) e.2.follower_par_cnt rfl).bind ?_ (fun _ _ => trivial)
      exact Reads.pure _
    exact hout.sep rfl (fun _ => trivial)
  rw [← List.append_nil (e.2.out ++ [nl])]
  refine (hname.reads (Q := Anything) rfl).bind ?_ (fun _ _ => trivial)
  refine hnode.bind ?_ (fun _ _ => trivial)
  exact Reads.pure _

/-- **A readable catalog is read back.** -/
theorem MetaServer.reads {m : MetaServer} (hok : m.Ok) (h : m.Readable) :
    ∃ m', Reads Anything readMetaServer m.out m' ∧ m.Same m' := by
  have hdb : ∀ e ∈ m.db_map_.entries, ∃ db, Reads Anything readDbMetaServer (e.2.out ++ [nl]) db ∧ db.name_ = e.1 ∧
      e.2.Same db := by
    intro e he
    obtain ⟨hname, hdbOk⟩ := hok.dbs e he
    obtain ⟨db, hreads, hsame⟩ := DbMetaServer.reads hdbOk (h e he)
    exact ⟨db, hreads.sep rfl (fun _ => trivial), by rw [← hsame.name_, hname], hsame⟩
  obtain ⟨dbs, hdbs⟩ := exists_forall₂ hdb
  have hreadDbs : Reads Anything (readN m.db_map_.size readDbMetaServer)
      (m.db_map_.entries.flatMap fun entry => entry.2.out ++ [nl]) dbs :=
    Reads.readN (hdbs.imp (fun _ _ hd => hd.1))
  have hcopyDbs : List.Forall₂ (fun e e' => e'.1 = e.1 ∧ DbMetaServer.Same e.2 e'.2) m.db_map_.entries
      (dbs.map fun db => (db.name_, db)) := by
    rw [List.forall₂_map_right_iff]
    exact hdbs.imp (fun _ _ hd => hd.2)
  obtain ⟨db_map_, hassignDbs, hsameDbs⟩ := @UnorderedMap.assignAll_copy _ _ _ _ _ _ .front _ hcopyDbs
  -- the nodes
  have hreadNodes : Reads Anything (readN m.ip_node_map_.size readServer)
      (m.ip_node_map_.entries.flatMap fun entry => [.field entry.1, sp] ++ (entry.2.out ++ [nl]))
      (m.ip_node_map_.entries.map fun e => (e.1, { e.2 with activate := false })) := by
    apply Reads.readN
    rw [List.forall₂_map_right_iff, List.forall₂_same]
    intro e he
    obtain ⟨hname, hip⟩ := hok.nodes e he
    exact readServer_reads hname hip
  have hcopyNodes : List.Forall₂ (fun e e' => e'.1 = e.1 ∧ MetaServer.Node.Same e.2 e'.2) m.ip_node_map_.entries
      (m.ip_node_map_.entries.map fun e => (e.1, { e.2 with activate := false })) := by
    rw [List.forall₂_map_right_iff, List.forall₂_same]
    exact fun e _ => ⟨rfl, rfl⟩
  obtain ⟨ip_node_map_, hassignNodes, hsameNodes⟩ := @UnorderedMap.assignAll_copy _ _ _ _ _ _ .front _ hcopyNodes
  refine ⟨⟨db_map_, ip_node_map_⟩, ?_, hsameDbs, hsameNodes⟩
  rw [← List.append_nil m.out, MetaServer.out, List.append_assoc, List.append_assoc, List.append_assoc]
  show Reads Anything readMetaServer ([num m.db_map_.size, nl] ++
    ((m.db_map_.entries.flatMap fun entry => entry.2.out ++ [nl]) ++ ([] ++ ([num m.ip_node_map_.size, nl] ++
      ((m.ip_node_map_.entries.flatMap fun entry => [.field entry.1, sp] ++ (entry.2.out ++ [nl])) ++ ([] ++ [])))))) _
  refine (reads_size (Q := Anything) m.db_map_.size_lt rfl).bind ?_ (fun _ _ => trivial)
  refine hreadDbs.bind ?_ (fun _ _ => trivial)
  refine (Reads.ofOption (P := Anything) hassignDbs).bind ?_ (fun _ _ => trivial)
  refine (reads_size (Q := Anything) m.ip_node_map_.size_lt rfl).bind ?_ (fun _ _ => trivial)
  refine hreadNodes.bind ?_ (fun _ _ => trivial)
  refine (Reads.ofOption (P := Anything) hassignNodes).bind ?_ (fun _ _ => trivial)
  exact Reads.pure _

/-! ## What is read back was readable -/

theorem lexes_readParMeta : Lexes readParMeta :=
  lexes_getString.bind fun _ => lexes_getInt32.bind fun _ => lexes_getString.bind fun _ =>
    lexes_getString.bind fun _ => Lexes.pure _

theorem lexes_readColumn_info : Lexes readColumn_info :=
  lexes_getInt32.bind fun _ => Lexes.bind
    (Lexes.readN (lexes_getString.bind fun _ => lexes_getInt32.bind fun _ => Lexes.pure _) _) fun _ => Lexes.pure _

theorem lexes_readNode : Lexes readNode :=
  lexes_getString.bind fun _ => lexes_getInt32.bind fun _ => lexes_getInt32.bind fun _ =>
    lexes_getInt32.bind fun _ => Lexes.pure _

theorem lexes_readReplicaLocation : Lexes readReplicaLocation :=
  lexes_getString.bind fun _ => lexes_getInt32.bind fun _ => lexes_getInt32.bind fun _ => Lexes.pure _

theorem lexes_readPhyPartitionLocation : Lexes readPhyPartitionLocation :=
  lexes_getInt32.bind fun _ => lexes_getInt32.bind fun _ => lexes_getInt32.bind fun _ => lexes_getSize.bind fun _ =>
    (lexes_readReplicaLocation.readN _).bind fun _ => Lexes.pure _

theorem lexes_readPhyTableLocation : Lexes readPhyTableLocation :=
  lexes_getInt32.bind fun _ => lexes_getInt32.bind fun _ => lexes_getSize.bind fun _ =>
    (lexes_readPhyPartitionLocation.readN _).bind fun _ => Lexes.pure _

theorem lexes_readTabMetaServer : Lexes readTabMetaServer :=
  lexes_getInt32.bind fun _ => lexes_getString.bind fun _ => lexes_getInt32.bind fun _ => lexes_getString.bind fun _ =>
    lexes_getInt32.bind fun _ => lexes_getInt32.bind fun _ => lexes_getSize.bind fun _ =>
      lexes_readColumn_info.bind fun _ => (lexes_readParMeta.readN _).bind fun _ =>
        lexes_readPhyTableLocation.bind fun _ => Lexes.pure _

theorem lexes_readDbMetaServer : Lexes readDbMetaServer :=
  lexes_getInt32.bind fun _ => lexes_getString.bind fun _ => lexes_getSize.bind fun _ =>
    (lexes_readTabMetaServer.readN _).bind fun _ => (Lexes.ofOption _).bind fun _ => Lexes.pure _

theorem lexes_readMetaServer : Lexes readMetaServer :=
  lexes_getSize.bind fun _ => (lexes_readDbMetaServer.readN _).bind fun _ => (Lexes.ofOption _).bind fun _ =>
    lexes_getSize.bind fun _ => (Lexes.readN (lexes_getString.bind fun _ => lexes_readNode.bind fun _ => Lexes.pure _) _).bind
      fun _ => (Lexes.ofOption _).bind fun _ => Lexes.pure _

/-! ### No white space but the separators -/

@[simp] theorem spaced_num {i : Int} {ps : List Put} : Spaced (num i :: ps) ↔ Spaced ps := by
  rw [num, spaced_field]
  exact and_iff_right (decimal_word i).nospace

@[simp] theorem spaced_sp {ps : List Put} : Spaced (sp :: ps) ↔ Spaced ps := by
  rw [sp, spaced_sep]
  exact and_iff_right rfl

@[simp] theorem spaced_nl {ps : List Put} : Spaced (nl :: ps) ↔ Spaced ps := by
  rw [nl, spaced_sep]
  exact and_iff_right rfl

theorem PhyTableLocation.spaced {loc : PhyTableLocation} (h : ∀ l ∈ loc.partiton_list_, l.Ok) : Spaced loc.out := by
  simp only [PhyTableLocation.out, List.cons_append, List.nil_append, spaced_num, spaced_sp, spaced_nl, spaced_flatMap]
  intro l hl
  simp only [PhyPartitionLocation.out, List.cons_append, List.nil_append, spaced_num, spaced_sp, spaced_nl, spaced_flatMap]
  intro r hr
  simp only [ReplicaLocation.out, spaced_field, spaced_num, spaced_sp, spaced_nl, spaced_nil, and_true]
  exact ((h l hl).ip r hr).nospace

theorem TabMetaServer.spaced {tab : TabMetaServer} (h : tab.Ok) : Spaced tab.out := by
  simp only [TabMetaServer.out, TabMetaServer.outHead, spaced_append, spaced_field, spaced_num, spaced_sp, spaced_nl,
    spaced_nil, Column_info.out, spaced_flatMap, and_true]
  refine ⟨⟨h.name.nospace, h.key_name⟩, ?_, ?_, PhyTableLocation.spaced h.location⟩
  · intro c hc
    simp only [Column_info.outColumn, spaced_field, spaced_num, spaced_sp, spaced_nl, spaced_nil, and_true]
    exact (h.col_info.names c.1 (List.of_mem_zip hc).1).nospace
  · intro pm hpm
    simp only [ParMeta.out, spaced_field, spaced_num, spaced_sp, spaced_nl, spaced_nil, and_true]
    obtain ⟨hname, -, hmin, hmax⟩ := h.partitions pm hpm
    exact ⟨hname.nospace, hmin, hmax⟩

theorem MetaServer.spaced {m : MetaServer} (h : m.Ok) : Spaced m.out := by
  simp only [MetaServer.out, spaced_append, spaced_num, spaced_nl, spaced_nil, spaced_flatMap, true_and, and_true,
    spaced_field, spaced_sp]
  constructor
  · intro e he
    obtain ⟨-, hname, htabs⟩ := h.dbs e he
    simp only [DbMetaServer.out, spaced_append, spaced_num, spaced_sp, spaced_field, spaced_nl, spaced_nil,
      spaced_flatMap, and_true]
    exact ⟨hname.nospace, fun t ht => TabMetaServer.spaced (htabs t ht).2⟩
  · intro e he
    obtain ⟨hname, hip⟩ := h.nodes e he
    simp only [MetaServer.Node.out, spaced_field, spaced_num, spaced_sp, spaced_nl, spaced_nil, and_true]
    exact ⟨hname.nospace, hip.nospace⟩

/-! ### Where the fields stand -/

/-- What an element of a list puts out is a part of what the list does. -/
theorem flatMap_split {α : Type} {l : List α} {x : α} (out : α → List Put) (h : x ∈ l) :
    ∃ pre post, l.flatMap out = pre ++ out x ++ post := by
  obtain ⟨a, b, rfl⟩ := List.mem_iff_append.mp h
  exact ⟨a.flatMap out, b.flatMap out, by rw [List.flatMap_append, List.flatMap_cons, List.append_assoc]⟩

theorem noDigit_num {i : Int} {text : Bytes} (h : NoDigit (decimal i ++ text)) : i < 0 := by
  by_contra hi
  obtain ⟨c, ds, hds⟩ := List.exists_cons_of_ne_nil (decimalNat_ne i.natAbs)
  have hc : isdigit c = true := isdigit_decimalNat (by rw [hds]; exact List.mem_cons_self)
  rw [decimal, if_neg hi, hds] at h
  rw [h c rfl] at hc
  cases hc

/-- **A separated table is readable.** -/
theorem TabMetaServer.readable {tab : TabMetaServer} {pre post : List Put} (hok : tab.Ok)
    (h : Separated (pre ++ tab.out ++ post)) : tab.Readable := by
  constructor
  -- an empty field is no token
  · have hsplit : tab.out = [num tab.oid.toInt, sp, .field tab.name, sp, num tab.partition_type.toInt, sp] ++
        .field tab.partition_key_name :: ([sp, num tab.partition_key_type.toInt, sp, num tab.partition_cnt_.toInt, sp,
          num tab.partitions.length, nl] ++ (tab.col_info.out ++
            (tab.partitions.flatMap ParMeta.out ++ tab.table_location_.out))) := rfl
    exact (h.mid hsplit).1
  · intro pm hpm
    obtain ⟨a, b, hab⟩ := flatMap_split ParMeta.out hpm
    have hparts : tab.out = (tab.outHead ++ tab.col_info.out ++ a) ++ (pm.out ++ (b ++ tab.table_location_.out)) := by
      rw [TabMetaServer.out, hab]
      simp only [List.append_assoc]
    constructor
    · exact (h.mid (a := tab.outHead ++ tab.col_info.out ++ a ++ [.field pm.name, sp, num pm.p_id.toInt, sp])
        (by rw [hparts, List.append_assoc _ [_, _, _, _]]; rfl)).1
    · exact (h.mid (a := tab.outHead ++ tab.col_info.out ++ a ++ [.field pm.name, sp, num pm.p_id.toInt, sp,
        .field pm.min_range, sp]) (by rw [hparts, List.append_assoc _ [_, _, _, _, _, _]]; rfl)).1
  · intro name hname
    -- the number of columns stands right in front of the first column name
    have hbehind := (h.mid (a := tab.outHead) (f := decimal tab.col_info.column_name.length) rfl).2
    obtain ⟨cols, hcols⟩ : ∃ cols, tab.col_info = cols := ⟨_, rfl⟩
    obtain ⟨column_name, column_type⟩ := cols
    have hlengths := hok.col_info.lengths
    have hnames := hok.col_info.names
    rw [hcols] at hname hbehind hlengths hnames
    cases column_name with
    | nil => cases hname
    | cons n column_name =>
        obtain rfl := Option.some.inj hname
        cases column_type with
        | nil => cases hlengths
        | cons type column_type =>
            obtain ⟨c, w, hw⟩ := List.exists_cons_of_ne_nil (hnames n List.mem_cons_self).ne
            subst hw
            intro d hd
            exact hbehind d hd
  · intro hnocols hnoparts
    -- or in front of the table id
    have hbehind := (h.mid (a := tab.outHead) (f := decimal tab.col_info.column_name.length) rfl).2
    rw [hnocols, hnoparts] at hbehind
    exact noDigit_num hbehind

/-- **The catalog round-trips** if and only if every table can be read back. -/
theorem MetaServer.roundTrips_iff_readable {m : MetaServer} (hok : m.Ok) : m.RoundTrips ↔ m.Readable := by
  constructor
  · rintro ⟨m', is, hread, hconsumed, -⟩
    have hseparated := lexes_readMetaServer.separated (MetaServer.spaced hok) hread hconsumed
    intro d hd t ht
    obtain ⟨pre, post, hdb⟩ := flatMap_split (fun entry : Bytes × DbMetaServer => entry.2.out ++ [nl]) hd
    obtain ⟨pre', post', htab⟩ := flatMap_split (fun entry : Bytes × TabMetaServer => entry.2.out ++ [nl]) ht
    have hsplit : m.out = ([num m.db_map_.size, nl] ++ (pre ++ ([num d.2.next_oid_.toInt, sp, .field d.2.name_, sp,
        num d.2.tabs_.size, nl] ++ pre'))) ++ t.2.out ++ ([nl] ++ (post' ++ ([nl] ++ (post ++ ([num m.ip_node_map_.size, nl]
          ++ m.ip_node_map_.entries.flatMap fun entry => [.field entry.1, sp] ++ (entry.2.out ++ [nl])))))) := by
      rw [MetaServer.out, hdb, DbMetaServer.out, htab]
      simp only [List.append_assoc]
    rw [hsplit] at hseparated
    exact TabMetaServer.readable ((hok.dbs d hd).2.tabs t ht).2 hseparated
  · intro h
    obtain ⟨m', hreads, hsame⟩ := MetaServer.reads hok h
    have hat : At ⟨textOf m.out, []⟩ (m.out ++ []) [] := ⟨⟨[], by simp, by simp⟩, rfl⟩
    obtain ⟨is, hread, -, hconsumed⟩ := hreads _ [] [] trivial hat
    exact ⟨m', is, hread, hconsumed, hsame⟩

end DDBMS
