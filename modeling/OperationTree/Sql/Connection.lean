import OperationTree.Numeric.Natural

/-! How the database is reached, read from the environment.  A variable that is missing or cannot be
read leaves its default. -/

namespace OperationTree.Sql

structure Connection where
  host : String := "localhost"
  port : Nat := 3306
  user : String := "root"
  password : String := ""
  database : Option String := none
  connectionLimit : Nat := 10
  deriving DecidableEq, Repr

/-- The connection that an environment describes; an empty database name names none. -/
def Connection.ofEnvironment (read? : String → Option String) : Connection :=
  let standard : Connection := {}
  { host := (read? "MYSQL_HOST").getD standard.host
    port := ((read? "MYSQL_PORT").bind (natural? 65536)).getD standard.port
    user := (read? "MYSQL_USER").getD standard.user
    password := (read? "MYSQL_PASSWORD").getD standard.password
    database := (read? "MYSQL_DATABASE").filter fun name => !name.isEmpty
    connectionLimit :=
      ((read? "MYSQL_CONNECTION_LIMIT").bind (natural? 4294967296)).getD standard.connectionLimit }

end OperationTree.Sql
