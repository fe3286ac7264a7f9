import BigDataPlatform.Lib.Substitute

/-! # The catalog that gravitino-init posts

A here document whose placeholders `sed` replaces with the environment's
values. sed does not read every value as text: a password is a Secret's, and
may hold its delimiter, its escape or its name for what has matched. -/
namespace BigDataPlatform.GravitinoInit
open Lib.Substitute

/-- In lines. -/
abbrev Body := List (List Char)

/-- `LEAD"VALUE"REST`. -/
def quoted (lead : String) (value : List Char) (rest : String) : List Char :=
  lead.toList ++ '"' :: (value ++ '"' :: rest.toList)

/-- The here document, with these texts where its placeholders stand. -/
def catalogJson (catalog uri user password warehouse : List Char) : Body := [
  "\x7b".toList,
  quoted "  \"name\": " catalog ",",
  "  \"type\": \"RELATIONAL\",".toList,
  "  \"provider\": \"lakehouse-iceberg\",".toList,
  "  \"comment\": \"Iceberg tables backed by PostgreSQL JDBC + S3FileIO (IAM role auth)\",".toList,
  "  \"properties\": \x7b".toList,
  "    \"catalog-backend\": \"jdbc\",".toList,
  quoted "    \"uri\": " uri ",",
  "    \"jdbc-driver\": \"org.postgresql.Driver\",".toList,
  quoted "    \"jdbc-user\": " user ",",
  quoted "    \"jdbc-password\": " password ",",
  quoted "    \"warehouse\": " warehouse ",",
  "    \"io-impl\": \"org.apache.iceberg.aws.s3.S3FileIO\"".toList,
  "  \x7d".toList,
  "\x7d".toList]

def catalogPlaceholder : List Char := "CATALOG_PLACEHOLDER".toList
def uriPlaceholder : List Char := "JDBC_URI_PLACEHOLDER".toList
def userPlaceholder : List Char := "JDBC_USER_PLACEHOLDER".toList
def passwordPlaceholder : List Char := "JDBC_PASSWORD_PLACEHOLDER".toList
def warehousePlaceholder : List Char := "WAREHOUSE_PLACEHOLDER".toList

def placeholders : List (List Char) :=
  [catalogPlaceholder, uriPlaceholder, userPlaceholder, passwordPlaceholder, warehousePlaceholder]

def catalogName : List Char := "sales_catalog".toList

structure Env where
  jdbcUrl : List Char
  jdbcUser : List Char
  jdbcPassword : List Char
  warehouse : List Char

def Env.values (env : Env) : List (List Char) :=
  [env.jdbcUrl, env.jdbcUser, env.jdbcPassword, env.warehouse]

/-- What `s|PAT|TEXT|g` puts where PAT stands, with a backslash just before
TEXT or not: `&` is what has matched. `none` where the expression does not end
with TEXT, or sed has a meaning of its own for an escape. -/
def replacement (pat : List Char) : Bool → List Char → Option (List Char)
  | false, [] => some []
  | true, [] => none
  | true, c :: text =>
    if c ∈ ['|', '&', '\\'] then (replacement pat false text).map (c :: ·) else none
  | false, c :: text =>
    if c = '\\' then replacement pat true text
    else if c ∈ ['|', '\n'] then none
    else (replacement pat false text).map ((if c = '&' then pat else [c]) ++ ·)

/-- The expressions of `sed -i`, in order. -/
def Env.expressions (env : Env) : List (List Char × List Char) := [
  (catalogPlaceholder, catalogName),
  (uriPlaceholder, env.jdbcUrl),
  (userPlaceholder, env.jdbcUser),
  (passwordPlaceholder, env.jdbcPassword),
  (warehousePlaceholder, env.warehouse)]

def Env.substitutions (env : Env) : Option (List (List Char × List Char)) :=
  env.expressions.mapM fun e => (replacement e.1 false e.2).map (e.1, ·)

/-- `/tmp/catalog.json` after `sed -i`. -/
def Env.catalogBody (env : Env) : Option Body :=
  env.substitutions.map fun subs =>
    (catalogJson catalogPlaceholder uriPlaceholder userPlaceholder passwordPlaceholder
      warehousePlaceholder).map (substitute subs)

/-! ## Values that sed reads as text -/

def Plain (v : List Char) : Prop := ∀ c ∈ v, c ∉ ['|', '&', '\\', '\n']

instance (v : List Char) : Decidable (Plain v) :=
  decidable_of_iff (v.all fun c => c ∉ ['|', '&', '\\', '\n']) (by simp [Plain])

theorem replacement_plain (pat : List Char) {v : List Char} (h : Plain v) : replacement pat false v = some v := by
  induction v with
  | nil => rfl
  | cons c v ih =>
    obtain ⟨hc, hv⟩ := List.forall_mem_cons.mp h
    have hne : c ≠ '|' ∧ c ≠ '&' ∧ c ≠ '\\' ∧ c ≠ '\n' := by simpa using hc
    rw [replacement, if_neg hne.2.2.1, if_neg (by simp [hne]), ih hv, if_neg hne.2.1]
    rfl

theorem plain_catalogName : Plain catalogName := by decide +kernel

theorem substitutions_plain {env : Env} (h : ∀ v ∈ env.values, Plain v) :
    env.substitutions = some env.expressions := by
  simp only [Env.values, List.forall_mem_cons] at h
  obtain ⟨hurl, huser, hpassword, hwarehouse, -⟩ := h
  simp only [Env.substitutions, Env.expressions, List.mapM_cons, List.mapM_nil,
    replacement_plain _ plain_catalogName, replacement_plain _ hurl, replacement_plain _ huser,
    replacement_plain _ hpassword, replacement_plain _ hwarehouse, Option.map_some]
  rfl

/-! ## The document -/

theorem placeholders_quoted : ∀ p ∈ placeholders, p ≠ [] ∧ '"' ∉ p ∧ '_' ∈ p := by decide +kernel

/-- Every placeholder has an underscore, and hardly anything else of the document. -/
theorem placeholder_apart {p text : List Char} (hp : p ∈ placeholders) (h : '_' ∉ text) : ¬p <:+: text :=
  fun hi => h (hi.subset (placeholders_quoted p hp).2.2)

/-- The lines of the here document without a placeholder. -/
def fixedLines : List (List Char) := [
  "\x7b".toList,
  "  \"type\": \"RELATIONAL\",".toList,
  "  \"provider\": \"lakehouse-iceberg\",".toList,
  "  \"comment\": \"Iceberg tables backed by PostgreSQL JDBC + S3FileIO (IAM role auth)\",".toList,
  "  \"properties\": \x7b".toList,
  "    \"catalog-backend\": \"jdbc\",".toList,
  "    \"jdbc-driver\": \"org.postgresql.Driver\",".toList,
  "    \"io-impl\": \"org.apache.iceberg.aws.s3.S3FileIO\"".toList,
  "  \x7d".toList,
  "\x7d".toList]

theorem fixedLines_apart : ∀ line ∈ fixedLines, '_' ∉ line := by simp [fixedLines]

/-- No placeholder is part of another. -/
theorem placeholders_distinct : placeholders.Pairwise fun p q => ¬p <:+: q := by
  decide +kernel

theorem mem_placeholders {env : Env} {sub : List Char × List Char} (h : sub ∈ env.expressions) :
    sub.1 ∈ placeholders ∧ sub.2 ∈ catalogName :: env.values := by
  simp only [Env.expressions, List.mem_cons, List.not_mem_nil, or_false] at h
  rcases h with rfl | rfl | rfl | rfl | rfl <;> simp [placeholders, Env.values]

theorem substitute_fixed (env : Env) {line : List Char} (h : line ∈ fixedLines) :
    substitute env.expressions line = line :=
  substitute_absent fun _ hsub => placeholder_apart (mem_placeholders hsub).1 (fixedLines_apart line h)

/-- What comes before a value's opening quote. -/
def leads : List String :=
  ["  \"name\": ", "    \"uri\": ", "    \"jdbc-user\": ", "    \"jdbc-password\": ", "    \"warehouse\": "]

theorem leads_apart : ∀ lead ∈ leads, '_' ∉ lead.toList := by simp [leads]

theorem substitute_quoted {env : Env} (hvalues : ∀ v ∈ env.values, ∀ p ∈ placeholders, ¬p <:+: v)
    {lead : String} (hlead : lead ∈ leads) (before : List (List Char × List Char))
    {after : List (List Char × List Char)} {pat v : List Char}
    (hsubs : env.expressions = before ++ (pat, v) :: after) :
    substitute env.expressions (quoted lead pat ",") = quoted lead v "," := by
  have hv : ∀ p ∈ placeholders, ¬p <:+: v := by
    have hmem : (pat, v) ∈ env.expressions := hsubs ▸ List.mem_append_right _ List.mem_cons_self
    rcases List.mem_cons.mp (mem_placeholders hmem).2 with hname | hvalue
    · have hapart : ∀ p ∈ placeholders, ¬p <:+: catalogName := by decide +kernel
      have hname : v = catalogName := hname
      rwa [hname]
    · exact hvalues v hvalue
  have hdistinct : ∀ sub ∈ before, ¬sub.1 <:+: pat := by
    have hpairs : (env.expressions.map Prod.fst).Pairwise fun p q => ¬p <:+: q := placeholders_distinct
    rw [hsubs, List.pairwise_map, List.pairwise_append] at hpairs
    exact fun sub hsub => hpairs.2.2 sub hsub _ List.mem_cons_self
  rw [hsubs]
  refine substitute_hole (fun sub hsub => ?_) hdistinct
  have hp := (mem_placeholders (hsubs ▸ hsub)).1
  obtain ⟨hne, hquote, -⟩ := placeholders_quoted sub.1 hp
  exact ⟨hne, hquote, hquote, placeholder_apart hp (leads_apart lead hlead),
    placeholder_apart hp (by simp), hv sub.1 hp⟩

/-- **The catalog is posted with the values as they are**, where sed reads each
as text and none holds a placeholder's name: nothing else of the document
changes, and no expression reaches into what another has put in. -/
theorem catalogBody_verbatim (env : Env) (hplain : ∀ v ∈ env.values, Plain v)
    (h : ∀ v ∈ env.values, ∀ p ∈ placeholders, ¬p <:+: v) :
    env.catalogBody =
      some (catalogJson catalogName env.jdbcUrl env.jdbcUser env.jdbcPassword env.warehouse) := by
  have hname := substitute_quoted h (show "  \"name\": " ∈ leads by simp [leads]) [] rfl
  have huri := substitute_quoted h (show "    \"uri\": " ∈ leads by simp [leads]) [_] rfl
  have huser := substitute_quoted h (show "    \"jdbc-user\": " ∈ leads by simp [leads]) [_, _] rfl
  have hpassword := substitute_quoted h (show "    \"jdbc-password\": " ∈ leads by simp [leads]) [_, _, _] rfl
  have hwarehouse := substitute_quoted h (show "    \"warehouse\": " ∈ leads by simp [leads]) [_, _, _, _] rfl
  have hfixed := fun line (hline : line ∈ fixedLines) => substitute_fixed env hline
  simp only [fixedLines, List.forall_mem_cons] at hfixed
  rw [Env.catalogBody, substitutions_plain hplain, Option.map_some]
  simp only [catalogJson, List.map_cons, List.map_nil, hname, huri, huser, hpassword, hwarehouse, hfixed]

/-- The values of the chart, and a bucket. -/
def deployedEnv : Env where
  jdbcUrl := "jdbc:postgresql://postgres-rw:5432/iceberg_catalog".toList
  jdbcUser := "gravitino".toList
  jdbcPassword := "s3cret".toList
  warehouse := "s3://bucket/warehouse".toList

theorem deployedEnv_verbatim : deployedEnv.catalogBody =
    some (catalogJson catalogName deployedEnv.jdbcUrl deployedEnv.jdbcUser deployedEnv.jdbcPassword
      deployedEnv.warehouse) :=
  catalogBody_verbatim deployedEnv (by decide +kernel) (by decide +kernel)

end BigDataPlatform.GravitinoInit
