/-! # graphify_enrichment.py: create_semantic_relationships

The `components` table, with every field: what is not `dependencies` or
`consumed_by` becomes the metadata of the component's node. The other tables of
the function are read by no code. -/
namespace BigDataPlatform.GraphEnrichment

/-- What `json.load` returns. A number, which nothing here reads, is its literal. -/
inductive Json where
  | null
  | bool (b : Bool)
  | num (literal : String)
  | str (s : String)
  | arr (items : List Json)
  | obj (fields : List (String × Json))

/-- A `dict` by its items, in insertion order. -/
abbrev Obj := List (String × Json)

namespace Obj

/-- `o.get(key)`. -/
def get (o : Obj) (key : String) : Option Json := o.lookup key

/-- `o.get(key, [])` of a field that holds strings. -/
def getStrings (o : Obj) (key : String) : List String :=
  match o.get key with
  | some (.arr items) => items.filterMap fun | .str s => some s | _ => none
  | _ => []

end Obj

def strings (xs : List String) : Json := .arr (xs.map .str)

def components : List (String × Obj) := [
  ("gravitino", [
    ("name", .str "Apache Gravitino 1.2.0"),
    ("role", .str "Unified AI & Data Metadata Lake with Iceberg REST Catalog (IRC)"),
    ("type", .str "metadata-catalog"),
    ("endpoints", .obj [("api", .str ":8090"), ("iceberg_rest", .str ":9001")]),
    ("dependencies", strings ["postgresql", "minio", "spark"]),
    ("consumed_by", strings ["spark", "starrocks", "jupyterhub", "hive-metastore"]),
    ("config", .obj [("metalake", .str "enterprise_metalake"),
      ("image", .str "apache/gravitino:1.2.0")])]),
  ("spark", [
    ("name", .str "Apache Spark 3.5.8"),
    ("role", .str "Distributed compute engine with Iceberg + Gravitino plugins"),
    ("type", .str "compute-engine"),
    ("image", .str "subhodeep2022/spark-bigdata:spark-3.5.8-v12-iceberg-gravitino"),
    ("dependencies", strings ["gravitino", "hive-metastore", "postgresql", "minio", "airflow"]),
    ("plugins", strings ["GravitinoSparkPlugin", "Iceberg-1.10.1", "Spark Connect"]),
    ("produced_by", strings ["airflow", "jupyterhub", "spark-connect-server"])]),
  ("hive-metastore", [
    ("name", .str "Apache Hive Metastore 3.1.3"),
    ("role", .str "Legacy metadata store + compatibility fallback"),
    ("type", .str "metadata-store"),
    ("service", .str "hive-metastore.default.svc.cluster.local:9083"),
    ("dependencies", strings ["postgresql", "minio"]),
    ("consumed_by", strings ["spark", "starrocks", "airflow"])]),
  ("minio", [
    ("name", .str "MinIO"),
    ("role", .str "S3-compatible distributed object storage + data lake root"),
    ("type", .str "object-storage"),
    ("service", .str "minio.default.svc.cluster.local:9000"),
    ("endpoint", .str "http://minio.default.svc.cluster.local:9000"),
    ("dependencies", strings []),
    ("consumed_by", strings ["spark", "gravitino", "hive-metastore", "starrocks", "jupyterhub",
      "airflow"]),
    ("buckets", strings ["spark-logs", "gravitino-meta", "hive-tables", "user-data"]),
    ("affinity", .str "minio-worker")]),
  ("postgresql", [
    ("name", .str "PostgreSQL 15+"),
    ("role", .str "ACID-compliant relational metadata store"),
    ("type", .str "relational-database"),
    ("service", .str "postgres.default.svc.cluster.local:5432"),
    ("dependencies", strings []),
    ("consumed_by", strings ["hive-metastore", "airflow", "superset", "gravitino", "jupyterhub"]),
    ("databases", strings ["airflow_db", "hive_metastore", "superset_db", "gravitino_db"]),
    ("affinity", .str "k8s-gp-node")]),
  ("airflow", [
    ("name", .str "Apache Airflow 2.7.1"),
    ("role", .str "Workflow orchestration & DAG scheduling"),
    ("type", .str "orchestration"),
    ("image", .str "apache/airflow:2.7.1"),
    ("executor", .str "KubernetesExecutor"),
    ("dependencies", strings ["postgresql", "spark-operator"]),
    ("triggers", strings ["spark", "airflow-user-init", "airflow-db-migrate"]),
    ("affinity", .str "k8s-gp-node")]),
  ("starrocks", [
    ("name", .str "StarRocks"),
    ("role", .str "OLAP query engine + vectorized MPP database"),
    ("type", .str "analytics-engine"),
    ("operator", .str "starrocks-kubernetes-operator-1.9.8"),
    ("dependencies", strings ["spark", "gravitino", "postgresql"]),
    ("consumed_by", strings ["superset", "jupyterhub"]),
    ("catalog", .str "Iceberg (native via Gravitino)"),
    ("affinity", .str "k8s-gp-node")]),
  ("jupyterhub", [
    ("name", .str "JupyterHub"),
    ("role", .str "Multi-user collaborative notebooks"),
    ("type", .str "interactive-compute"),
    ("image", .str "subhodeep2022/spark-bigdata:jupyterhub-4.0.7-pyspark-scala-sql-prod-v3"),
    ("spawner", .str "KubeSpawner"),
    ("dependencies", strings ["postgresql", "spark", "minio"]),
    ("libraries", strings ["PySpark", "Scala", "SQL", "Pandas", "NumPy"])]),
  ("superset", [
    ("name", .str "Apache Superset"),
    ("role", .str "Visual analytics + dashboard creation"),
    ("type", .str "bi-dashboard"),
    ("version", .str "0.12.0"),
    ("dependencies", strings ["postgresql", "starrocks", "spark", "hive-metastore"]),
    ("connectors", strings ["StarRocks (JDBC)", "Spark SQL", "Hive"]),
    ("init_job", .str "superset-init-job")]),
  ("cloudflared", [
    ("name", .str "Cloudflared"),
    ("role", .str "Secure tunnel to dailyblogstudio.com"),
    ("type", .str "networking-tunnel"),
    ("tunnel_id", .str "91e5be1d-3b51-4cac-aebf-d330aafda394"),
    ("routes", strings ["jupyterhub", "superset", "headlamp", "grafana", "spark-history-server",
      "gravitino-api"]),
    ("affinity", .str "control-plane"),
    ("network_policy", .str "Restricted egress to tunnel only")]),
  ("spark-history-server", [
    ("name", .str "Spark History Server"),
    ("role", .str "Spark job history + event log viewer"),
    ("type", .str "monitoring"),
    ("dependencies", strings ["minio", "spark"]),
    ("log_source", .str "MinIO (spark-logs bucket)")]),
  ("spark-operator", [
    ("name", .str "Spark Operator"),
    ("role", .str "SparkApplication CRD controller"),
    ("type", .str "kubernetes-operator"),
    ("crd", .str "sparkoperator.k8s.io_sparkapplications"),
    ("version", .str "2.4.0"),
    ("affinity", .str "control-plane")]),
  ("redis", [
    ("name", .str "Redis"),
    ("role", .str "Cache + task queuing (optional)"),
    ("type", .str "cache"),
    ("dependencies", strings []),
    ("consumed_by", strings ["airflow", "jupyterhub", "superset"]),
    ("enabled", .str "redis.enabled")]),
  ("prometheus", [
    ("name", .str "Prometheus (kube-prometheus-stack)"),
    ("role", .str "Time-series metrics database"),
    ("type", .str "metrics"),
    ("version", .str "56.6.2"),
    ("scrape_targets", strings ["spark", "airflow", "postgresql", "minio", "starrocks",
      "k8s-api"])]),
  ("grafana", [
    ("name", .str "Grafana"),
    ("role", .str "Metrics visualization + alerting"),
    ("type", .str "observability-ui"),
    ("data_sources", strings ["prometheus", "loki"]),
    ("dashboards", strings ["kubernetes", "spark-jobs", "airflow", "data-platform-health"]),
    ("port", .str "3000"),
    ("tunnel", .str "cloudflared")]),
  ("loki", [
    ("name", .str "Loki Stack"),
    ("role", .str "Log aggregation (Prometheus-style)"),
    ("type", .str "logging"),
    ("version", .str "2.10.2"),
    ("storage", .str "minio"),
    ("retention", .obj [("hot", .str "7d"), ("warm", .str "30d")])]),
  ("headlamp", [
    ("name", .str "Headlamp"),
    ("role", .str "Web-based Kubernetes dashboard"),
    ("type", .str "k8s-ui"),
    ("tunnel", .str "cloudflared")]),
  ("ingress", [
    ("name", .str "Ingress Controller"),
    ("role", .str "Path-based routing + TLS termination"),
    ("type", .str "networking"),
    ("routes", strings ["gravitino", "spark-history-server", "jupyterhub", "superset"])])]

end BigDataPlatform.GraphEnrichment
